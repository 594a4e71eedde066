import Laghu.SlabPoolInvariants

/-!
All pools and leases of a program over whole runs. Each active lease holds one
slot of its pool; what a call does to one lease is stated next to an arbitrary
multiset of the others.
-/

namespace Laghu.SlabPools

open Contract ObjectTable FreeLists Multiset ObjectTable.Table World Option

variable {T : Type}

/-- The lease is active and belongs to pool `p`. -/
def Holds (p : ℕ) (l : Lease) : Prop := l.active = true ∧ l.pool = some p

instance (p : ℕ) : DecidablePred (Holds p) :=
  fun l => inferInstanceAs (Decidable (l.active = true ∧ l.pool = some p))

/-- The slots of pool `p` that the leases hold. -/
def held (p : ℕ) (leases : Multiset Lease) : Multiset Size :=
  (leases.filter (Holds p)).map Lease.index

/-- An active lease points to the object in its slot, and its pool exists. -/
def LeaseSound (pools : Table (SlabPool T)) (l : Lease) : Prop :=
  l.active = true → l.value = some l.index ∧ ∃ p x, l.pool = some p ∧ pools.get? p = some x

structure Sound (pools : Table (SlabPool T)) (leases : Multiset Lease) : Prop where
  pool : ∀ p x, pools.get? p = some x → PoolSound x (held p leases)
  lease : ∀ l ∈ leases, LeaseSound pools l

section Leases

variable {pools : Table (SlabPool T)} {leases : Multiset Lease} {l : Lease} {p : ℕ}
  {x x' : SlabPool T}

theorem held_cons_of_holds (h : Holds p l) (leases : Multiset Lease) :
    held p (l ::ₘ leases) = l.index ::ₘ held p leases := by
  rw [held, filter_cons_of_pos _ h, map_cons, held]

theorem held_cons_of_not (h : ¬ Holds p l) (leases : Multiset Lease) :
    held p (l ::ₘ leases) = held p leases := by
  rw [held, filter_cons_of_neg _ h, held]

theorem not_holds_of_inactive (hl : l.active = false) (p : ℕ) : ¬ Holds p l := by
  rintro ⟨hact, _⟩
  rw [hl] at hact
  cases hact

theorem not_holds_of_ne {q : ℕ} (hl : l.pool = some p) (hne : q ≠ p) : ¬ Holds q l := by
  rintro ⟨_, hq⟩
  rw [hl, some.injEq] at hq
  exact hne hq.symm

theorem index_mem_held (hmem : l ∈ leases) (h : Holds p l) : l.index ∈ held p leases :=
  mem_map_of_mem _ (mem_filter.mpr ⟨hmem, h⟩)

theorem Sound.cons_inactive (hl : l.active = false) :
    Sound pools (l ::ₘ leases) ↔ Sound pools leases := by
  have hsame : ∀ q, held q (l ::ₘ leases) = held q leases :=
    fun q => held_cons_of_not (not_holds_of_inactive hl q) leases
  constructor
  · intro h
    refine ⟨fun q y hy => ?_, fun m hm => h.lease m (mem_cons_of_mem hm)⟩
    rw [← hsame]
    exact h.pool q y hy
  intro h
  refine ⟨fun q y hy => ?_, fun m hm => ?_⟩
  · rw [hsame]
    exact h.pool q y hy
  rcases mem_cons.mp hm with rfl | hold
  · intro hact
    rw [hl] at hact
    cases hact
  · exact h.lease m hold

theorem LeaseSound.set (h : LeaseSound pools l) (p : ℕ) (x' : SlabPool T) :
    LeaseSound (pools.set p x') l := by
  intro hact
  obtain ⟨hv, q, y, hq, hy⟩ := h hact
  by_cases hqp : q = p
  · subst hqp
    exact ⟨hv, q, x', hq, get?_set_self x' hy⟩
  · exact ⟨hv, q, y, hq, by rw [get?_set_ne _ _ hqp, hy]⟩

/-- Changing one pool together with the leases on it. -/
theorem Sound.update {leases' : Multiset Lease} (h : Sound pools leases)
    (hx' : PoolSound x' (held p leases')) (hothers : ∀ q, q ≠ p → held q leases' = held q leases)
    (hleases : ∀ l ∈ leases', LeaseSound (pools.set p x') l) : Sound (pools.set p x') leases' := by
  refine ⟨fun q y hy => ?_, hleases⟩
  rcases get?_set_cases hy with ⟨rfl, rfl⟩ | ⟨hqp, hy⟩
  · exact hx'
  · rw [hothers q hqp]
    exact h.pool q y hy

/-- An active lease gives its slot back to its pool. -/
theorem Sound.release_slot (h : Sound pools (l ::ₘ leases)) (hact : l.active = true)
    (hp : l.pool = some p) (hx : pools.get? p = some x) :
    ∃ x', x.releaseUnchecked l = some (x', { l with value := none, active := false }) ∧
      Sound (pools.set p x') leases := by
  obtain ⟨hv, _⟩ := h.lease l (mem_cons_self _ _) hact
  have hpool := h.pool p x hx
  rw [held_cons_of_holds ⟨hact, hp⟩] at hpool
  have hr : x.initialized = true := by
    by_contra hnot
    rw [Bool.not_eq_true] at hnot
    exact cons_ne_zero (hpool.dormant hnot).1
  obtain ⟨free, hfree⟩ := hpool.threaded hr
  obtain ⟨x', hrun, hr', hfree'⟩ := releaseUnchecked_slot hr hfree hv
  refine ⟨x', hrun, h.update (hfree'.poolSound hr') ?_ ?_⟩
  · intro q hq
    exact (held_cons_of_not (not_holds_of_ne hp hq) leases).symm
  · intro m hm
    exact (h.lease m (mem_cons_of_mem hm)).set p x'

/-- Releasing an inactive lease does nothing, and no release can stop the
program. -/
theorem Lease.releaseUnchecked_spec (h : Sound pools (l ::ₘ leases)) :
    ∃ pools' l', l.releaseUnchecked pools = some (pools', l') ∧ Sound pools' leases := by
  by_cases hact : l.active = true
  · obtain ⟨_, p, x, hp, hx⟩ := h.lease l (mem_cons_self _ _) hact
    obtain ⟨x', hrun, hs⟩ := h.release_slot hact hp hx
    exact ⟨pools.set p x', { l with value := none, active := false },
      by simp [Lease.releaseUnchecked, hact, hp, hx, hrun], hs⟩
  · rw [Bool.not_eq_true] at hact
    exact ⟨pools, l, by simp [Lease.releaseUnchecked, hact], (Sound.cons_inactive hact).mp h⟩

end Leases

/-- The two ways in which a call stops the program: a repeated release in a
debug build without a hook, and a pool destroyed under its leases. -/
def Stops (b : Build) (w : World T) (c : Call T) : Prop :=
  (∃ k worker l p x, c = .release k worker ∧ w.leases.get? k = some l ∧ l.active = false ∧
    l.pool = some p ∧ w.pools.get? p = some x ∧ b.ndebug = false ∧
    x.debugHooks.doubleRelease = false) ∨
  ∃ p x, c = .destroyPool p ∧ w.pools.get? p = some x ∧ x.liveLeases ≠ 0#64

/-- The call returns and keeps the invariant, or stops the program in one of
the known ways. -/
def StepSpec (b : Build) (w : World T) (c : Call T) : Prop :=
  (∃ r w', w.step b c = some (r, w') ∧ Sound w'.pools w'.leases.values) ∨
    (Stops b w c ∧ w.step b c = none)

section Steps

variable {b : Build} {w : World T}

theorem construct_step (h : Sound w.pools w.leases.values) (worker : WorkerId)
    (storage : Storage T) (capacity alignment : Size) (hooks : SlabPoolDebugHooks) :
    StepSpec b w (.construct worker storage capacity alignment hooks) := by
  left
  refine ⟨.ok (), _, rfl, ?_, ?_⟩
  · intro p x hx
    rcases get?_push_cases hx with ⟨rfl, rfl⟩ | hx
    · refine ⟨fun _ => ⟨?_, rfl, rfl⟩, fun hr => by cases hr⟩
      -- no lease can hold a slot of a pool that did not exist
      rw [held, map_eq_zero, filter_eq_nil]
      rintro l hl ⟨hact, hpool⟩
      obtain ⟨_, q, y, hq, hy⟩ := h.lease l hl hact
      rw [hpool, some.injEq] at hq
      rw [← hq, get?_of_size_le (Nat.le_refl _)] at hy
      cases hy
    · exact h.pool p x hx
  · intro l hl hact
    obtain ⟨hv, q, y, hq, hy⟩ := h.lease l hl hact
    exact ⟨hv, q, y, hq, get?_push_of_some _ hy⟩

variable {p k source : ℕ} {x : SlabPool T}

theorem tryAcquire_step (h : Sound w.pools w.leases.values) (hx : w.pools.get? p = some x)
    (worker : WorkerId) (v : T) : StepSpec b w (.tryAcquire p worker v) := by
  left
  have href : ∀ x', PoolSound x' (held p w.leases.values) →
      Sound (w.pools.set p x') w.leases.values := fun x' hx' =>
    h.update hx' (fun _ _ => rfl) (fun l hl => (h.lease l hl).set p x')
  rcases tryAcquire_cases b p worker v (h.pool p x hx) with
    ⟨_, e, hrun⟩ | ⟨_, e, x', hrun, hx'⟩ | ⟨_, i, x', hrun, hx'⟩
  · exact ⟨.error e, { w with pools := w.pools.set p x }, by simp [step, hx, hrun],
      href x (h.pool p x hx)⟩
  · exact ⟨.error e, { w with pools := w.pools.set p x' }, by simp [step, hx, hrun],
      href x' hx'⟩
  refine ⟨.ok (), { w with
    pools := w.pools.set p x'
    leases := w.leases.push ⟨some p, i, some i, true⟩ }, by simp [step, hx, hrun], ?_⟩
  rw [values_push]
  apply h.update
  · rw [held_cons_of_holds ⟨rfl, rfl⟩]
    exact hx'
  · intro q hq
    exact held_cons_of_not (not_holds_of_ne rfl hq) _
  intro l hl
  rcases mem_cons.mp hl with rfl | hold
  · exact fun _ => ⟨rfl, p, x', rfl, get?_set_self x' hx⟩
  · exact (h.lease l hold).set p x'

theorem reportDoubleRelease_eq_none :
    x.reportDoubleRelease b = none ↔ b.ndebug = false ∧ x.debugHooks.doubleRelease = false := by
  unfold SlabPool.reportDoubleRelease
  cases b.ndebug <;> cases x.debugHooks.doubleRelease <;> simp

variable {l : Lease}

section

variable (h : Sound w.pools w.leases.values)
include h

theorem release_active (hl : w.leases.get? k = some l) (hact : l.active = true)
    (hpool : l.pool = some p) (hx : w.pools.get? p = some x) (worker : WorkerId) :
    ∃ r w', w.step b (.release k worker) = some (r, w') ∧ Sound w'.pools w'.leases.values := by
  cases hw : x.requireWorker worker with
  | error e =>
    have hsame : w.step b (.release k worker) = some (.error e, w) := by
      simp [step, release, SlabPool.release, hl, hpool, hx, hact, hw,
        set_get?_self hx, set_get?_self hl]
    exact ⟨.error e, w, hsame, h⟩
  | ok _ =>
    obtain ⟨rest, hvals, hset, _⟩ := values_focus hl
    rw [hvals] at h
    obtain ⟨x', hrun, hs⟩ := h.release_slot hact hpool hx
    refine ⟨.ok (), { w with
      pools := w.pools.set p x'
      leases := w.leases.set k { l with value := none, active := false } }, ?_, ?_⟩
    · simp [step, release, SlabPool.release, hl, hpool, hx, hact, hw, hrun]
    · rw [hset]
      exact (Sound.cons_inactive rfl).mpr hs

theorem release_step (hl : w.leases.get? k = some l)
    (hlive : ∀ p, l.pool = some p → ∃ x, w.pools.get? p = some x) (worker : WorkerId) :
    StepSpec b w (.release k worker) := by
  cases hpool : l.pool with
  | none =>
    exact .inl ⟨.error inactiveLeaseError, w, by simp [step, release, hl, hpool], h⟩
  | some p =>
    obtain ⟨x, hx⟩ := hlive p hpool
    cases hact : l.active with
    | true => exact .inl (release_active h hl hact hpool hx worker)
    | false =>
      cases hreport : x.reportDoubleRelease b with
      | none =>
        exact .inr ⟨.inl ⟨k, worker, l, p, x, rfl, hl, hact, hpool, hx,
            reportDoubleRelease_eq_none.mp hreport⟩,
          by simp [step, release, hl, hpool, hx, hact, hreport]⟩
      | some reports =>
        exact .inl ⟨.error inactiveLeaseError, { w with reports := w.reports ++ reports },
          by simp [step, release, hl, hpool, hx, hact, hreport], h⟩

theorem moveLease_step (hl : w.leases.get? source = some l) : StepSpec b w (.moveLease source) := by
  obtain ⟨rest, hvals, hset, _⟩ := values_focus hl
  refine .inl ⟨.ok (), { w with leases := (w.leases.set source {}).push l },
    by simp [step, hl], ?_⟩
  rw [values_push, hset, cons_swap]
  rw [hvals] at h
  exact (Sound.cons_inactive rfl).mpr h

theorem assignLease_step {target : ℕ} {old moved : Lease} (hold : w.leases.get? target = some old)
    (hm : w.leases.get? source = some moved) : StepSpec b w (.assignLease target source) := by
  left
  by_cases hne : target = source
  · exact ⟨.ok (), w, by simp [step, assignLease, hne], h⟩
  obtain ⟨rest, hvals, hset⟩ := values_assign hne hold hm
  rw [hvals] at h
  obtain ⟨pools', l', hrun, hs⟩ := Lease.releaseUnchecked_spec h
  refine ⟨.ok (), { w with
    pools := pools'
    leases := (w.leases.set target moved).set source {} },
    by simp [step, assignLease, hne, hold, hm, hrun], ?_⟩
  rw [hset]
  exact (Sound.cons_inactive rfl).mpr hs

theorem destroyLease_step (hl : w.leases.get? k = some l) : StepSpec b w (.destroyLease k) := by
  obtain ⟨rest, hvals, _, herase⟩ := values_focus hl
  rw [hvals] at h
  obtain ⟨pools', l', hrun, hs⟩ := Lease.releaseUnchecked_spec h
  refine .inl ⟨.ok (), { w with pools := pools', leases := w.leases.erase k },
    by simp [step, hl, hrun], ?_⟩
  rw [herase]
  exact hs

end

/-- The live count of a pool is the number of active leases on it. -/
theorem PoolSound.card_held {held : Multiset Size} (h : PoolSound x held) :
    held.card = x.liveLeases.toNat := by
  cases hr : x.initialized with
  | false =>
    obtain ⟨hheld, hl, _⟩ := h.dormant hr
    rw [hheld, hl]
    rfl
  | true =>
    obtain ⟨free, hfree⟩ := h.threaded hr
    exact hfree.count.symm

theorem destroyPool_step (h : Sound w.pools w.leases.values) (hx : w.pools.get? p = some x) :
    StepSpec b w (.destroyPool p) := by
  by_cases hlive : x.liveLeases = 0#64
  · refine .inl ⟨.ok (), { w with pools := w.pools.erase p },
      by simp [step, hx, hlive], ?_, ?_⟩
    · intro q y hy
      exact h.pool q y (get?_erase_cases hy).2
    intro l hl hact
    obtain ⟨hv, q, y, hq, hy⟩ := h.lease l hl hact
    refine ⟨hv, q, y, hq, ?_⟩
    have hne : q ≠ p := by
      intro heq
      subst heq
      have hn : held q w.leases.values = 0 := by
        rw [← card_eq_zero, (h.pool q x hx).card_held, hlive]
        rfl
      have hmem := index_mem_held hl ⟨hact, hq⟩
      rw [hn] at hmem
      exact notMem_zero _ hmem
    rw [get?_erase_ne _ hne, hy]
  · exact .inr ⟨.inr ⟨p, x, rfl, hx, hlive⟩, by simp [step, hx, hlive]⟩

theorem step_spec (h : Sound w.pools w.leases.values) {c : Call T} (hlegal : w.Legal c) :
    StepSpec b w c := by
  cases c with
  | construct worker storage capacity alignment hooks => exact construct_step h _ _ _ _ _
  | tryAcquire p worker v =>
    obtain ⟨x, hx⟩ := hlegal
    exact tryAcquire_step h hx worker v
  | release k worker =>
    obtain ⟨l, hl, hlive⟩ := hlegal
    exact release_step h hl hlive worker
  | defaultLease =>
    refine .inl ⟨.ok (), { w with leases := w.leases.push {} }, rfl, ?_⟩
    rw [values_push]
    exact (Sound.cons_inactive rfl).mpr h
  | moveLease source =>
    obtain ⟨l, hl⟩ := hlegal
    exact moveLease_step h hl
  | assignLease target source =>
    obtain ⟨⟨old, hold⟩, moved, hm⟩ := hlegal
    exact assignLease_step h hold hm
  | destroyLease k =>
    obtain ⟨l, hl⟩ := hlegal
    exact destroyLease_step h hl
  | destroyPool p =>
    obtain ⟨x, hx⟩ := hlegal
    exact destroyPool_step h hx

theorem run_sound {trace : List (Call T × Result Unit)}
    (h : Runs.Run (system b) {} trace w) : Sound w.pools w.leases.values := by
  apply h.invariant (P := fun w => Sound w.pools w.leases.values)
  · intro s c r t hs hlegal hstep
    rcases step_spec (b := b) hs hlegal with ⟨r', t', hrun, ht⟩ | ⟨_, hn⟩
    · have heq := hrun.symm.trans hstep
      rw [some.injEq, Prod.mk.injEq] at heq
      rw [← heq.2]
      exact ht
    · have heq := hn.symm.trans hstep
      cases heq
  · refine ⟨fun p x hx => ?_, fun l hl => absurd hl (notMem_zero l)⟩
    simp [Table.empty, Table.get?] at hx

section

variable (h : Sound w.pools w.leases.values)
include h

/-- The slots held on one pool are pairwise different. -/
theorem Sound.held_nodup (hx : w.pools.get? p = some x) : (held p w.leases.values).Nodup := by
  have hpool := h.pool p x hx
  cases hr : x.initialized with
  | false =>
    rw [(hpool.dormant hr).1]
    exact nodup_zero
  | true =>
    obtain ⟨free, hfree⟩ := hpool.threaded hr
    exact (nodup_add.mp hfree.nodup).2.1

theorem Sound.lease_unique {k' : ℕ} {l' : Lease} (hl : w.leases.get? k = some l)
    (hl' : w.leases.get? k' = some l') (hp : Holds p l) (hp' : Holds p l')
    (hidx : l.index = l'.index) : k = k' := by
  have hmem : l ∈ w.leases.values := (mem_values _ _).mpr ⟨k, hl⟩
  obtain ⟨_, q, x, hq, hx⟩ := h.lease l hmem hp.1
  rw [hp.2, some.injEq] at hq
  subst hq
  exact index_unique (h.held_nodup hx) hl hl' hp hp' hidx

theorem Sound.slot_leased {i : Size} {slot : SlabPoolSlot T} (hx : w.pools.get? p = some x)
    (hr : x.initialized = true) (hi : i.toNat < x.capacity.toNat)
    (hslot : x.storage.slot? i = some slot) (htaken : slot.occupied = true) :
    ∃ k l, w.leases.get? k = some l ∧ Holds p l ∧ l.index = i := by
  obtain ⟨free, hfree⟩ := (h.pool p x hx).threaded hr
  rcases hfree.mem_of_lt hi with hvac | hheld
  · obtain ⟨slot', hslot', hfalse⟩ := hfree.vacant i hvac
    rw [hslot, some.injEq] at hslot'
    rw [← hslot', htaken] at hfalse
    cases hfalse
  obtain ⟨l, hl, hidx⟩ := mem_map.mp hheld
  obtain ⟨hmem, hholds⟩ := mem_filter.mp hl
  obtain ⟨k, hk⟩ := (mem_values _ _).mp hmem
  exact ⟨k, l, hk, hholds, hidx⟩

/-- The owner of a pool whose layout is accepted gets a slot exactly when one is
left. -/
theorem Sound.acquire_iff (hx : w.pools.get? p = some x) (hlay : (x.initializePool b).1 = .ok ())
    (v : T) :
    (∃ w', w.step b (.tryAcquire p x.worker v) = some (.ok (), w')) ↔
      x.liveLeases.toNat < x.capacity.toNat := by
  rcases tryAcquire_cases b p x.worker v (h.pool p x hx) with
    ⟨href, _⟩ | ⟨hf, e, x', hrun, _⟩ | ⟨hr, i, x', hrun, _⟩
  · rcases href with hw | hbad
    · exact absurd rfl hw
    · exact absurd hlay hbad
  · have hstep : w.step b (.tryAcquire p x.worker v) =
        some (.error e, { w with pools := w.pools.set p x' }) := by
      simp [step, hx, hrun]
    rw [hstep]
    refine iff_of_false ?_ (by omega)
    rintro ⟨w', heq⟩
    cases heq
  · refine iff_of_true ⟨{ w with
      pools := w.pools.set p x'
      leases := w.leases.push ⟨some p, i, some i, true⟩ }, ?_⟩ hr
    simp [step, hx, hrun]

end

/-- In every program state the free list of an initialised pool visits the
unoccupied slots once each, leases and occupied slots correspond, the owner is
served exactly while a slot is left, and neither acquiring nor releasing a slot
can stop the program. -/
theorem slab_pool_sound {trace : List (Call T × Result Unit)}
    (h : Runs.Run (World.system b) {} trace w) :
    (∀ p x, w.pools.get? p = some x → x.initialized = true →
      ∃ visited, Follows x.storage.next? noSlot x.freeHead visited ∧ visited.Nodup ∧
        (∀ i, i ∈ visited ↔ i.toNat < x.capacity.toNat ∧
          ∃ slot, x.storage.slot? i = some slot ∧ slot.occupied = false) ∧
        visited.length + x.liveLeases.toNat = x.capacity.toNat) ∧
    (∀ p k k' l l', w.leases.get? k = some l → w.leases.get? k' = some l' → Holds p l →
      Holds p l' → l.index = l'.index → k = k') ∧
    (∀ p x i slot, w.pools.get? p = some x → x.initialized = true →
      i.toNat < x.capacity.toNat → x.storage.slot? i = some slot → slot.occupied = true →
      ∃! k, ∃ l, w.leases.get? k = some l ∧ Holds p l ∧ l.index = i) ∧
    (∀ p x v, w.pools.get? p = some x → (x.initializePool b).1 = .ok () →
      ((∃ w', w.step b (.tryAcquire p x.worker v) = some (.ok (), w')) ↔
        x.liveLeases.toNat < x.capacity.toNat)) ∧
    (∀ p x worker v, w.pools.get? p = some x → x.tryAcquire b p worker v ≠ none) ∧
    (∀ k l p x, w.leases.get? k = some l → Holds p l → w.pools.get? p = some x →
      x.releaseUnchecked l ≠ none) ∧
    ∀ c, w.Legal c → w.step b c = none → Stops b w c := by
  have hs := run_sound h
  refine ⟨?_, ?_, ?_, ?_, ?_, ?_, ?_⟩
  · intro p x hx hready
    obtain ⟨free, hfree⟩ := (hs.pool p x hx).threaded hready
    refine ⟨free, hfree.follows, ?_, hfree.mem_free_iff, ?_⟩
    · exact coe_nodup.mp (nodup_add.mp hfree.nodup).1
    · rw [hfree.count]
      exact hfree.length_add_card
  · intro p k k' l l' hl hl' hp hp' hindex
    exact hs.lease_unique hl hl' hp hp' hindex
  · intro p x i slot hx hready hi hslot htaken
    obtain ⟨k, l, hl, hp, hindex⟩ := hs.slot_leased hx hready hi hslot htaken
    refine ⟨k, ⟨l, hl, hp, hindex⟩, ?_⟩
    rintro k' ⟨l', hl', hp', hindex'⟩
    exact hs.lease_unique hl' hl hp' hp (hindex'.trans hindex.symm)
  · intro p x v hx hlayout
    exact hs.acquire_iff hx hlayout v
  · intro p x worker v hx hnone
    rcases tryAcquire_cases b p worker v (hs.pool p x hx) with
      ⟨_, e, hrun⟩ | ⟨_, e, x', hrun, _⟩ | ⟨_, i, x', hrun, _⟩ <;>
    · rw [hrun] at hnone
      cases hnone
  · intro k l p x hl hp hx hnone
    obtain ⟨rest, hvalues, _⟩ := Table.values_focus hl
    rw [hvalues] at hs
    obtain ⟨x', hrun, _⟩ := hs.release_slot hp.1 hp.2 hx
    rw [hrun] at hnone
    cases hnone
  · intro c hlegal hnone
    rcases step_spec (b := b) hs hlegal with ⟨r, w', hrun, _⟩ | ⟨hstops, _⟩
    · rw [hrun] at hnone
      cases hnone
    · exact hstops

def sampleBuild : Build := { slotBytes := 24#64, slotAlignment := 8#64, ndebug := false }

theorem sampleOwner_ne_zero : 1#64 ≠ 0#64 := by decide

def sampleOwner : WorkerId := ⟨1#64, sampleOwner_ne_zero⟩

def sampleStorage (first second : SlabPoolSlot ℕ) : Storage ℕ :=
  { data := 4096, slots := [first, second], fits := show 2 < 2 ^ 64 by decide }

/-- A pool of two slots, both leased. -/
def filledWorld : World ℕ where
  pools := ⟨[some {
    worker := sampleOwner
    storage := sampleStorage ⟨some 7, 1#64, true⟩ ⟨some 8, noSlot, true⟩
    capacity := 2#64
    alignment := 8#64
    liveLeases := 2#64
    initialized := true }]⟩
  leases := ⟨[some ⟨some 0, 0#64, some 0#64, true⟩, some ⟨some 0, 1#64, some 1#64, true⟩]⟩

theorem filledWorld_run : Runs.Run (system sampleBuild) {}
    [(.construct sampleOwner (sampleStorage {} {}) 2#64 8#64 {}, .ok ()),
     (.tryAcquire 0 sampleOwner 7, .ok ()), (.tryAcquire 0 sampleOwner 8, .ok ())] filledWorld :=
  .cons trivial rfl (.cons ⟨_, rfl⟩ rfl (.cons ⟨_, rfl⟩ rfl (.refl _)))

theorem slab_pool_sound_filled :
    ¬ ∃ w', filledWorld.step sampleBuild (.tryAcquire 0 sampleOwner 9) = some (.ok (), w') := by
  have hserved := (slab_pool_sound filledWorld_run).2.2.2.1 0 _ 9 rfl rfl
  exact fun hok => absurd (hserved.mp hok) (by decide)

end Steps

end Laghu.SlabPools
