import Laghu.ArenaInvariants

/-!
Programs over any number of arenas. The invariant ties every arena to the
budget tree and to the pins that refer to it; the effect of a call says which
arena it touches and how, and from it every property of whole runs follows.
-/

namespace Laghu.BoundedArenas

open Contract ObjectTable MemoryBudgets Views ObjectTable.Table Multiset List Option Multiset World

/-- Every arena is well formed and the budget tree accounts for all of them. -/
structure Funded (w : World) : Prop where
  shape : ∀ a x, w.arenas.get? a = some x → Shape x
  accounted : Accounted w.budgets (w.arenaReservations + w.reservations.values)
  budget_live : ∀ a x, w.arenas.get? a = some x →
    ∃ y, w.budgets.get? x.budget = some y ∧ (x.capacity ≠ 0#64 → y.worker = x.worker)

def pinCount (P : Multiset ArenaPin) (a : ℕ) : ℕ := P.countP (fun p => p.arena = some a)

/-- Every arena counts exactly the pins in `P` that refer to it. -/
structure PinsCounted (arenas : Table BoundedArena) (P : Multiset ArenaPin) : Prop where
  count : ∀ a x, arenas.get? a = some x → x.livePins.toNat = pinCount P a
  live : ∀ p ∈ P, ∀ a, p.arena = some a → ∃ x, arenas.get? a = some x

structure Sound (w : World) : Prop extends Funded w where
  pins : PinsCounted w.arenas w.pins.values

/-- Everything about an arena but the number of its pins. -/
def unpinned (x : BoundedArena) : BoundedArena := { x with livePins := 0#64 }

/-- The same arenas up to their pins. -/
structure SameArenas (arenas arenas' : Table BoundedArena) : Prop where
  get_eq : ∀ a, (arenas'.get? a).map unpinned = (arenas.get? a).map unpinned

theorem SameArenas.refl (arenas : Table BoundedArena) : SameArenas arenas arenas :=
  ⟨fun _ => rfl⟩

theorem SameArenas.set_livePins {arenas : Table BoundedArena} {a : ℕ} {x : BoundedArena}
    (hx : arenas.get? a = some x) (n : Size) :
    SameArenas arenas (arenas.set a { x with livePins := n }) := by
  constructor
  intro b
  by_cases hb : b = a
  · subst hb
    rw [get?_set_self _ hx, hx]
    rfl
  · rw [get?_set_ne _ _ hb]

section Pins

variable {arenas : Table BoundedArena} {P : Multiset ArenaPin} {a : ℕ} {x : BoundedArena}

theorem pinCount_cons_self (P : Multiset ArenaPin) (a : ℕ) :
    pinCount ({ arena := some a } ::ₘ P) a = pinCount P a + 1 :=
  countP_cons_of_pos _ rfl

theorem pinCount_cons_ne (P : Multiset ArenaPin) {p : ArenaPin} (h : p.arena ≠ some a) :
    pinCount (p ::ₘ P) a = pinCount P a :=
  countP_cons_of_neg _ h

theorem PinsCounted.cons_empty : PinsCounted arenas ({} ::ₘ P) ↔ PinsCounted arenas P := by
  constructor
  · intro h
    refine ⟨?_, fun p hp => h.live p (mem_cons_of_mem hp)⟩
    intro b y hy
    rw [h.count b y hy, pinCount_cons_ne P (by simp)]
  intro h
  refine ⟨?_, ?_⟩
  · intro b y hy
    rw [h.count b y hy, pinCount_cons_ne P (by simp)]
  intro p hp b hb
  rcases mem_cons.mp hp with rfl | hp
  · cases hb
  · exact h.live p hp b hb

/-- Changing one arena's counter and the pins on it together. -/
theorem PinsCounted.set (h : PinsCounted arenas P) (hx : arenas.get? a = some x)
    {x' : BoundedArena} {P' : Multiset ArenaPin} (hself : x'.livePins.toNat = pinCount P' a)
    (ho : ∀ b, b ≠ a → pinCount P' b = pinCount P b)
    (hl : ∀ p ∈ P', p ∈ P ∨ p.arena = some a) : PinsCounted (arenas.set a x') P' := by
  constructor
  · intro b y hy
    rcases get?_set_cases hy with ⟨rfl, rfl⟩ | ⟨hb, hy⟩
    · exact hself
    · rw [ho b hb]
      exact h.count b y hy
  intro p hp b hb
  by_cases hba : b = a
  · subst hba
    exact ⟨x', get?_set_self _ hx⟩
  rcases hl p hp with hold | hnew
  · obtain ⟨y, hy⟩ := h.live p hold b hb
    exact ⟨y, by rw [get?_set_ne _ _ hba, hy]⟩
  · rw [hnew] at hb
    exact absurd (some.inj hb).symm hba

end Pins

section Focus

variable {w : World} {a : ℕ} {x : BoundedArena}

/-- One arena and its budget against an arbitrary rest of the program. -/
theorem Funded.focus (h : Funded w) (hx : w.arenas.get? a = some x) :
    ∃ R, Accounted w.budgets (x.reservation ::ₘ R) ∧
      ∀ x' bs', Shape x' → x'.budget = x.budget → x'.worker = x.worker →
        Accounted bs' (x'.reservation ::ₘ R) → (∀ lost, Keeps lost w.budgets bs') →
        (x'.capacity ≠ 0#64 → ∀ y, w.budgets.get? x.budget = some y → y.worker = x.worker) →
        Funded { w with budgets := bs', arenas := w.arenas.set a x' } := by
  obtain ⟨rest, hvals, hset, _⟩ := values_focus hx
  refine ⟨rest.map BoundedArena.reservation + w.reservations.values, ?_, ?_⟩
  · have hacc := h.accounted
    rwa [arenaReservations, hvals, Multiset.map_cons, cons_add] at hacc
  intro x' bs' hs hbudget hw hacc hkeeps howner
  refine ⟨?_, ?_, ?_⟩
  · intro b y hy
    rcases get?_set_cases hy with ⟨rfl, rfl⟩ | ⟨_, hy⟩
    · exact hs
    · exact h.shape b y hy
  · change Accounted bs' ((w.arenas.set a x').values.map BoundedArena.reservation +
      w.reservations.values)
    rw [hset, Multiset.map_cons, cons_add]
    exact hacc
  intro b y hy
  rcases get?_set_cases hy with ⟨rfl, rfl⟩ | ⟨_, hy⟩
  · obtain ⟨z, hz, _⟩ := h.budget_live b x hx
    obtain ⟨z', hz', hsame⟩ := hkeeps (fun _ => False) _ z not_false hz
    refine ⟨z', by rw [hbudget]; exact hz', ?_⟩
    intro hf
    rw [hsame, hw]
    exact howner hf z hz
  · obtain ⟨z, hz, hz_owner⟩ := h.budget_live b y hy
    obtain ⟨z', hz', hsame⟩ := hkeeps (fun _ => False) _ z not_false hz
    exact ⟨z', hz', fun hf => hsame.trans (hz_owner hf)⟩

/-- Pins are not part of the accounting. -/
theorem Funded.with_pins (h : Funded w) {pins : Table ArenaPin} : Funded { w with pins := pins } :=
  ⟨h.shape, h.accounted, h.budget_live⟩

theorem Funded.set_livePins (h : Funded w) (hx : w.arenas.get? a = some x) (n : Size) :
    Funded { w with arenas := w.arenas.set a { x with livePins := n } } := by
  obtain ⟨R, hacc, hset⟩ := h.focus hx
  have hs := h.shape a x hx
  apply hset { x with livePins := n } w.budgets
    ⟨hs.offset_le, hs.capacity_le, hs.storage_size, hs.reservation_eq⟩ rfl rfl hacc
    (fun lost => Keeps.refl lost _)
  intro hf y hy
  obtain ⟨z, hz, howner⟩ := h.budget_live a x hx
  have hsame : z = y := some.inj (hz.symm.trans hy)
  rw [← hsame]
  exact howner hf

/-- Dropping a pin never finds an empty counter. -/
theorem releasePin_spec (h : Funded w) {p : ArenaPin} {P : Multiset ArenaPin}
    (hp : PinsCounted w.arenas (p ::ₘ P)) :
    ∃ arenas', w.releasePin p = some { w with arenas := arenas' } ∧
      Funded { w with arenas := arenas' } ∧ PinsCounted arenas' P ∧
      SameArenas w.arenas arenas' := by
  cases harena : p.arena with
  | none =>
    refine ⟨w.arenas, by simp [releasePin, harena], h, ?_, SameArenas.refl _⟩
    have he : p = {} := by
      cases p
      cases harena
      rfl
    rw [he] at hp
    exact PinsCounted.cons_empty.mp hp
  | some b =>
    obtain ⟨y, hy⟩ := hp.live p (mem_cons_self _ _) b harena
    have hpin : p = { arena := some b } := by
      cases p
      cases harena
      rfl
    have hn := hp.count b y hy
    rw [hpin, pinCount_cons_self] at hn
    have hpos : y.livePins ≠ 0#64 := by
      rw [ne_eq, size_eq_zero]
      omega
    refine ⟨w.arenas.set b { y with livePins := y.livePins - 1 }, ?_,
      h.set_livePins hy _, ?_, SameArenas.set_livePins hy _⟩
    · simp [releasePin, harena, hy, BoundedArena.releasePin, hpos]
    apply hp.set hy
    · bv_omega
    · intro c hc
      rw [pinCount_cons_ne P (by rw [harena]; exact fun heq => hc (some.inj heq).symm)]
    · intro q hq
      exact .inl (mem_cons_of_mem hq)

end Focus

/-- The call is a successful reset of arena `a`. -/
def isReset (a : ℕ) : Call → Output → Bool
  | .reset arena _ _ _, .done (.ok ()) => arena == a
  | _, _ => false

/-- The call is a successful non-empty allocation from arena `a`. -/
def isAllocation (a : ℕ) : Call → Output → Bool
  | .tryAllocate arena _ bytes _ _, .view (.ok _) => arena == a && bytes != 0#64
  | _, _ => false

/-- How one call changes the arena `a`. -/
inductive ArenaStep (w : World) (a : ℕ) (c : Call) (o : Output) (x x' : BoundedArena) : Prop
  | idle (hreset : isReset a c o = false) (hallocation : isAllocation a c o = false)
      (hsame : unpinned x' = unpinned x)
  | allocated {worker : WorkerId} {bytes alignment : Size} {reply : Result MutableByteView}
      {allocation : MutableByteView} (hcall : c = .tryAllocate a worker bytes alignment reply)
      (houtput : o = .view (.ok
        { arena := some a, bytes := allocation, generation := x.generation }))
      (hbytes : bytes ≠ 0#64) (h : Allocated x x' bytes alignment allocation)
  | reset {worker : WorkerId} {k : ℕ} {reply : Result Unit} {boundary : ArenaQuiescentBoundary}
      (hcall : c = .reset a worker k reply) (houtput : o = .done (.ok ()))
      (hissued : w.boundaries[k]? = some boundary) (harena : boundary.arena = a)
      (hgeneration : boundary.generation = x.generation) (hpins : x.livePins = 0#64)
      (hlast : x.generation ≠ sizeMax) (hnext : x'.generation = x.generation + 1)

/-- A boundary is new only if its arena has just issued it. -/
def BoundariesIssued (w : World) (c : Call) (o : Output) (w' : World) : Prop :=
  ∀ k boundary, w'.boundaries[k]? = some boundary →
    w.boundaries[k]? = some boundary ∨
      ∃ worker x, c = .quiescentBoundary boundary.arena worker ∧ o = .boundary (.ok k) ∧
        w.arenas.get? boundary.arena = some x ∧ boundary.generation = x.generation

/-- A view returned by an allocation carries the generation of its arena. -/
def ViewsIssued (w : World) (c : Call) (o : Output) : Prop :=
  ∀ a worker bytes alignment reply v, c = .tryAllocate a worker bytes alignment reply →
    o = .view (.ok v) →
    ∃ x, w.arenas.get? a = some x ∧ v.arena = some a ∧ v.generation = x.generation

/-- What a call may do to the arenas of a program. -/
structure Effect (w : World) (c : Call) (o : Output) (w' : World) : Prop where
  sound : Sound w'
  failed : o.failed = true → w' = w
  arenas : ∀ a x', w'.arenas.get? a = some x' →
    (w.arenas.get? a = none ∧ x'.generation = 1#64) ∨
      ∃ x, w.arenas.get? a = some x ∧ ArenaStep w a c o x x'
  kept : ∀ a x, w.arenas.get? a = some x → ∃ x', w'.arenas.get? a = some x'
  unborn : ∀ a, w.arenas.get? a = none → isReset a c o = false ∧ isAllocation a c o = false
  boundaries : BoundariesIssued w c o w'
  views : ViewsIssued w c o

section Effects

variable {w w' : World} {c : Call} {o : Output}

variable {a source : ℕ} {x : BoundedArena}

theorem Effect.arena_step (h : Effect w c o w') (hx : w.arenas.get? a = some x) :
    ∃ x', w'.arenas.get? a = some x' ∧ ArenaStep w a c o x x' := by
  obtain ⟨x', hx'⟩ := h.kept a x hx
  rcases h.arenas a x' hx' with ⟨hn, _⟩ | ⟨y, hy, hstep⟩
  · rw [hx] at hn
    cases hn
  have hsame : y = x := some.inj (hy.symm.trans hx)
  subst hsame
  exact ⟨x', hx', hstep⟩

/-- A call that only moves pins or boundaries around. -/
theorem Effect.of_same (hs : Sound w') (hf : o.failed = true → w' = w)
    (hreset : ∀ a, isReset a c o = false) (hallocation : ∀ a, isAllocation a c o = false)
    (hsame : SameArenas w.arenas w'.arenas) (hboundaries : BoundariesIssued w c o w')
    (hviews : ViewsIssued w c o) : Effect w c o w' := by
  refine ⟨hs, hf, ?_, ?_, fun a _ => ⟨hreset a, hallocation a⟩, hboundaries, hviews⟩
  · intro a x' hx'
    have hget := hsame.get_eq a
    rw [hx'] at hget
    cases hx : w.arenas.get? a with
    | none =>
      rw [hx] at hget
      cases hget
    | some x =>
      rw [hx] at hget
      exact .inr ⟨x, rfl, .idle (hreset a) (hallocation a) (some.inj hget)⟩
  · intro a x hx
    have hget := hsame.get_eq a
    rw [hx] at hget
    cases hx' : w'.arenas.get? a with
    | none =>
      rw [hx'] at hget
      cases hget
    | some x' => exact ⟨x', rfl⟩

/-- A call on one existing arena. -/
theorem Effect.of_set {x' : BoundedArena} {bs : Budgets} (hx : w.arenas.get? a = some x)
    (hs : Sound { w with budgets := bs, arenas := w.arenas.set a x' })
    (hstep : ArenaStep w a c o x x') (hok : o.failed = false)
    (hreset : ∀ b, b ≠ a → isReset b c o = false)
    (hallocation : ∀ b, b ≠ a → isAllocation b c o = false) (hviews : ViewsIssued w c o) :
    Effect w c o { w with budgets := bs, arenas := w.arenas.set a x' } := by
  refine ⟨hs, fun h => by simp [hok] at h, ?_, ?_, ?_, fun _ _ h => .inl h, hviews⟩
  · intro b y hy
    rcases get?_set_cases hy with ⟨rfl, rfl⟩ | ⟨hb, hy⟩
    · exact .inr ⟨x, hx, hstep⟩
    · exact .inr ⟨y, hy, .idle (hreset b hb) (hallocation b hb) rfl⟩
  · intro b y hy
    exact live_set a x' hy
  intro b hb
  have hne : b ≠ a := by
    intro heq
    subst heq
    rw [hx] at hb
    cases hb
  exact ⟨hreset b hne, hallocation b hne⟩

theorem Effect.unchanged (h : Sound w) (hreset : ∀ a, isReset a c o = false)
    (hallocation : ∀ a, isAllocation a c o = false) (hviews : ViewsIssued w c o) : Effect w c o w :=
  .of_same h (fun _ => rfl) hreset hallocation (SameArenas.refl _) (fun _ _ h => .inl h) hviews

theorem allocation_effect (h : Sound w) (hx : w.arenas.get? a = some x) (worker : WorkerId)
    (bytes alignment : Size) (reply : Result MutableByteView) :
    ∃ o w', w.step (.tryAllocate a worker bytes alignment reply) = some (o, w') ∧
      Effect w (.tryAllocate a worker bytes alignment reply) o w' := by
  obtain ⟨R, hacc, hset⟩ := h.focus hx
  obtain ⟨y, hy, howner⟩ := h.budget_live a x hx
  rcases tryAllocate_cases (h.shape a x hx) hacc hy howner a worker bytes alignment reply with
    ⟨e, hrun⟩ | ⟨h0, hrun⟩ | ⟨allocation, x', bs', hbytes, hrun, halloc, hacc', hkeeps, hw⟩
  · refine ⟨.view (.error e), w, by simp [step, hx, hrun, set_get?_self hx],
      .unchanged h (fun _ => rfl) (fun _ => rfl) ?_⟩
    intro _ _ _ _ _ _ _ ho
    cases ho
  · refine ⟨.view (.ok { arena := some a, generation := x.generation }), w,
      by simp [step, hx, hrun, set_get?_self hx], .unchanged h (fun _ => rfl) ?_ ?_⟩
    · intro b
      simp [isAllocation, h0]
    intro b _ _ _ _ _ hc ho
    cases hc
    cases ho
    exact ⟨x, hx, rfl, rfl⟩
  refine ⟨.view (.ok { arena := some a, bytes := allocation, generation := x.generation }),
    { w with budgets := bs', arenas := w.arenas.set a x' }, by simp [step, hx, hrun],
    .of_set hx ⟨?_, ?_⟩ (.allocated rfl rfl hbytes halloc) rfl (fun _ _ => rfl) ?_ ?_⟩
  · apply hset x' bs' halloc.shape halloc.budget_eq halloc.worker_eq hacc' hkeeps
    intro _ z hz
    have hsame : y = z := some.inj (hy.symm.trans hz)
    rw [← hsame]
    exact hw
  · apply h.pins.set hx _ (fun _ _ => rfl) (fun _ hp => .inl hp)
    rw [halloc.livePins_eq]
    exact h.pins.count a x hx
  · intro b hb
    simp [isAllocation, Ne.symm hb]
  intro b _ _ _ _ _ hc ho
  cases hc
  cases ho
  exact ⟨x, hx, rfl, rfl⟩

theorem reset_effect (h : Sound w) {k : ℕ} {boundary : ArenaQuiescentBoundary}
    (hx : w.arenas.get? a = some x) (hk : w.boundaries[k]? = some boundary) (worker : WorkerId)
    (reply : Result Unit) :
    ∃ o w', w.step (.reset a worker k reply) = some (o, w') ∧
      Effect w (.reset a worker k reply) o w' := by
  obtain ⟨R, hacc, hset⟩ := h.focus hx
  obtain ⟨y, hy, howner⟩ := h.budget_live a x hx
  have hviews : ∀ o, ViewsIssued w (.reset a worker k reply) o := by
    intro o _ _ _ _ _ _ hc
    cases hc
  rcases reset_cases (h.shape a x hx) hacc hy howner a worker boundary reply with
    ⟨e, hrun⟩ | ⟨bs', hrun, harena, hgeneration, hpins, hlast, hacc', hkeeps⟩
  · exact ⟨.done (.error e), w, by simp [step, hx, hk, hrun, set_get?_self hx],
      .unchanged h (fun _ => rfl) (fun _ => rfl) (hviews _)⟩
  let x' : BoundedArena := { x with
    reservation := {}
    storage := .empty
    capacity := 0#64
    offset := 0#64
    generation := x.generation + 1 }
  refine ⟨.done (.ok ()), { w with budgets := bs', arenas := w.arenas.set a x' },
    by simp [step, hx, hk, hrun, x'], .of_set hx ⟨?_, ?_⟩
    (.reset rfl rfl hk harena hgeneration hpins hlast rfl) rfl ?_ (fun _ _ => rfl) (hviews _)⟩
  · apply hset x' bs' ⟨Nat.le_refl _, Nat.zero_le _, fun hf => absurd rfl hf, rfl⟩ rfl rfl
      ((Accounted.cons_inactive rfl).mpr hacc') hkeeps
    intro hf
    exact absurd rfl hf
  · apply h.pins.set hx _ (fun _ _ => rfl) (fun _ hp => .inl hp)
    exact h.pins.count a x hx
  · intro b hb
    simp [isReset, Ne.symm hb]

/-- No pin refers to an arena that does not exist yet. -/
theorem pinCount_unborn {arenas : Table BoundedArena} {P : Multiset ArenaPin}
    (h : PinsCounted arenas P) (ha : arenas.size ≤ a) : pinCount P a = 0 := by
  rw [pinCount, Multiset.countP_eq_zero]
  intro p hp hpin
  obtain ⟨x, hx⟩ := h.live p hp a hpin
  have := lt_size_of_get? hx
  omega

theorem Sound.push (h : Sound w) {y : MemoryBudget} (hs : Shape x) (hresv : x.reservation = {})
    (hcap : x.capacity = 0#64) (hpins : x.livePins = 0#64) (hy : w.budgets.get? x.budget = some y) :
    Sound { w with arenas := w.arenas.push x } := by
  refine ⟨⟨?_, ?_, ?_⟩, ⟨?_, ?_⟩⟩
  · intro a z hz
    rcases get?_push_cases hz with ⟨rfl, rfl⟩ | hz
    · exact hs
    · exact h.shape a z hz
  · change Accounted w.budgets ((w.arenas.push x).values.map BoundedArena.reservation +
      w.reservations.values)
    rw [values_push, Multiset.map_cons, cons_add]
    exact (Accounted.cons_inactive (by rw [hresv])).mpr h.accounted
  · intro a z hz
    rcases get?_push_cases hz with ⟨rfl, rfl⟩ | hz
    · exact ⟨y, hy, fun hf => absurd hcap hf⟩
    · exact h.budget_live a z hz
  · intro a z hz
    rcases get?_push_cases hz with ⟨rfl, rfl⟩ | hz
    · rw [hpins]
      exact (pinCount_unborn h.pins (le_refl _)).symm
    · exact h.pins.count a z hz
  · intro p hp a ha
    obtain ⟨z, hz⟩ := h.pins.live p hp a ha
    exact ⟨z, get?_push_of_some _ hz⟩

theorem construct_effect (h : Sound w) (worker : WorkerId) {budget : ℕ} {y : MemoryBudget}
    (hy : w.budgets.get? budget = some y) (source : ArenaBlockSource)
    (initialCapacity maximumCapacity : Size) :
    ∃ o w', w.step (.construct worker budget source initialCapacity maximumCapacity) =
        some (o, w') ∧
      Effect w (.construct worker budget source initialCapacity maximumCapacity) o w' := by
  let x : BoundedArena := .construct worker budget source initialCapacity maximumCapacity
  have hs : Shape x := ⟨Nat.le_refl _, Nat.zero_le _, fun hfull => absurd rfl hfull, rfl⟩
  refine ⟨.done (.ok ()), { w with arenas := w.arenas.push x }, rfl,
    h.push hs rfl rfl rfl hy, (fun hf => by cases hf), ?_, ?_, (fun _ _ => ⟨rfl, rfl⟩),
    (fun _ _ hb => .inl hb), ?_⟩
  · intro a z hz
    rcases get?_push_cases hz with ⟨rfl, rfl⟩ | hz
    · exact .inl ⟨get?_of_size_le (le_refl _), rfl⟩
    · exact .inr ⟨z, hz, .idle rfl rfl rfl⟩
  · intro a z hz
    exact ⟨z, get?_push_of_some _ hz⟩
  · intro _ _ _ _ _ _ hc
    cases hc

theorem boundary_effect (h : Sound w) (hx : w.arenas.get? a = some x) (worker : WorkerId) :
    ∃ o w', w.step (.quiescentBoundary a worker) = some (o, w') ∧
      Effect w (.quiescentBoundary a worker) o w' := by
  have hviews : ∀ o, ViewsIssued w (.quiescentBoundary a worker) o := by
    intro o _ _ _ _ _ _ hc
    cases hc
  rcases requireWorker_eq x worker with ⟨_, hok⟩ | ⟨_, e, he⟩
  · let issued : ArenaQuiescentBoundary := { arena := a, generation := x.generation }
    refine ⟨.boundary (.ok w.boundaries.length), { w with boundaries := w.boundaries ++ [issued] },
      by simp [step, hx, BoundedArena.quiescentBoundary, hok, issued],
      .of_same ⟨⟨h.shape, h.accounted, h.budget_live⟩, h.pins⟩ (fun hf => by cases hf)
        (fun _ => rfl) (fun _ => rfl) (SameArenas.refl _) ?_ (hviews _)⟩
    intro k boundary hk
    by_cases hold : k < w.boundaries.length
    · rw [getElem?_append_left hold] at hk
      exact .inl hk
    obtain ⟨hlt, hget⟩ := List.getElem?_eq_some_iff.mp hk
    rw [length_append, length_singleton] at hlt
    have hlast : k = w.boundaries.length := by omega
    subst hlast
    rw [getElem_append_right (le_refl _)] at hget
    simp only [Nat.sub_self, getElem_cons_zero] at hget
    subst hget
    exact .inr ⟨worker, x, rfl, rfl, hx, rfl⟩
  · exact ⟨.boundary (.error e), w, by simp [step, hx, BoundedArena.quiescentBoundary, he],
      .unchanged h (fun _ => rfl) (fun _ => rfl) (hviews _)⟩

theorem pin_effect (h : Sound w) (hx : w.arenas.get? a = some x) (worker : WorkerId) :
    ∃ o w', w.step (.pin a worker) = some (o, w') ∧ Effect w (.pin a worker) o w' := by
  have hviews : ∀ o, ViewsIssued w (.pin a worker) o := by
    intro o _ _ _ _ _ _ hc
    cases hc
  rcases requireWorker_eq x worker with ⟨_, hok⟩ | ⟨_, e, he⟩
  · by_cases hfull : x.livePins = sizeMax
    · refine ⟨_, w, by simp only [step, hx, BoundedArena.pin, hok, hfull, if_true,
        bind_eq_bind, bind_some, Option.pure_def]; rfl,
        .unchanged h (fun _ => rfl) (fun _ => rfl) (hviews _)⟩
    refine ⟨.done (.ok ()), { w with
      arenas := w.arenas.set a { x with livePins := x.livePins + 1 }
      pins := w.pins.push { arena := some a } },
      by simp [step, hx, BoundedArena.pin, hok, hfull],
      .of_same ⟨?_, ?_⟩ (fun hf => by cases hf) (fun _ => rfl) (fun _ => rfl)
        (SameArenas.set_livePins hx _) (fun _ _ hb => .inl hb) (hviews _)⟩
    · exact (h.toFunded.set_livePins hx _).with_pins
    rw [values_push]
    have hn := h.pins.count a x hx
    unfold sizeMax at hfull
    apply h.pins.set hx
    · rw [pinCount_cons_self]
      bv_omega
    · intro b hb
      exact pinCount_cons_ne _ (fun heq => hb (some.inj heq).symm)
    intro p hp
    rcases Multiset.mem_cons.mp hp with rfl | hp
    · exact .inr rfl
    · exact .inl hp
  · exact ⟨.done (.error e), w, by simp [step, hx, BoundedArena.pin, he],
      .unchanged h (fun _ => rfl) (fun _ => rfl) (hviews _)⟩

/-- The pin operations only change pins and the counters of their arenas. -/
theorem pins_effect (arenas' : Table BoundedArena) (pins' : Table ArenaPin)
    (hfunded : Funded { w with arenas := arenas' }) (hpins : PinsCounted arenas' pins'.values)
    (hsame : SameArenas w.arenas arenas') (hreset : ∀ a o, isReset a c o = false)
    (hallocation : ∀ a o, isAllocation a c o = false) (hviews : ∀ o, ViewsIssued w c o)
    (hstep : w.step c = some (.done (.ok ()), { w with arenas := arenas', pins := pins' })) :
    ∃ o w', w.step c = some (o, w') ∧ Effect w c o w' :=
  ⟨_, _, hstep, .of_same ⟨hfunded.with_pins, hpins⟩ (fun hf => by cases hf) (fun a => hreset a _)
    (fun a => hallocation a _) hsame (fun _ _ hb => .inl hb) (hviews _)⟩

theorem movePin_effect (h : Sound w) {p : ArenaPin} (hp : w.pins.get? source = some p) :
    ∃ o w', w.step (.movePin source) = some (o, w') ∧ Effect w (.movePin source) o w' := by
  obtain ⟨rest, hvals, hset, _⟩ := values_focus hp
  have hpins := h.pins
  rw [hvals] at hpins
  apply pins_effect w.arenas ((w.pins.set source {}).push p) h.toFunded ?_ (SameArenas.refl _)
    (fun _ _ => rfl) (fun _ _ => rfl)
    (fun _ _ _ _ _ _ _ hc => by cases hc) (by simp [step, hp])
  rw [values_push, hset, cons_swap]
  exact PinsCounted.cons_empty.mpr hpins

theorem destroyPin_effect (h : Sound w) {id : ℕ} {p : ArenaPin} (hp : w.pins.get? id = some p) :
    ∃ o w', w.step (.destroyPin id) = some (o, w') ∧ Effect w (.destroyPin id) o w' := by
  obtain ⟨rest, hvals, _, herase⟩ := values_focus hp
  have hpins := h.pins
  rw [hvals] at hpins
  obtain ⟨arenas', hrun, hfunded, hpins', hsame⟩ := releasePin_spec h.toFunded hpins
  apply pins_effect arenas' (w.pins.erase id) hfunded (by rw [herase]; exact hpins') hsame
    (fun _ _ => rfl) (fun _ _ => rfl) (fun _ _ _ _ _ _ _ hc => by cases hc)
  simp [step, hp, hrun]

theorem assignPin_effect (h : Sound w) {target : ℕ} {old moved : ArenaPin}
    (hold : w.pins.get? target = some old) (hm : w.pins.get? source = some moved) :
    ∃ o w', w.step (.assignPin target source) = some (o, w') ∧
      Effect w (.assignPin target source) o w' := by
  by_cases hne : target = source
  · exact pins_effect w.arenas w.pins h.toFunded h.pins
      (SameArenas.refl _) (fun _ _ => rfl) (fun _ _ => rfl)
      (fun _ _ _ _ _ _ _ hc => by cases hc) (by simp [step, assignPin, hne])
  obtain ⟨rest, hvals, hset⟩ := values_assign hne hold hm
  have hpins := h.pins
  rw [hvals] at hpins
  obtain ⟨arenas', hrun, hfunded, hpins', hsame⟩ := releasePin_spec h.toFunded hpins
  apply pins_effect arenas' ((w.pins.set target moved).set source {}) hfunded ?_ hsame
    (fun _ _ => rfl) (fun _ _ => rfl) (fun _ _ _ _ _ _ _ hc => by cases hc)
    (by simp [step, assignPin, hne, hold, hm, hrun])
  rw [hset]
  exact PinsCounted.cons_empty.mpr hpins'

/-- The only way in which a call stops the program. -/
def Saturates (w : World) (c : Call) : Prop :=
  ∃ p limit x, c = .budgets (.createChild p limit) ∧ w.budgets.get? p = some x ∧
    x.liveChildren = sizeMax

theorem budgets_effect (h : Sound w) {call : MemoryBudgets.Call} (hl : w.Legal (.budgets call)) :
    (∃ o w', w.step (.budgets call) = some (o, w') ∧ Effect w (.budgets call) o w') ∨
      (Saturates w (.budgets call) ∧ w.step (.budgets call) = none) := by
  obtain ⟨hheap, hk⟩ := hl
  have hacc : Accounted w.heap.budgets (w.heap.reservations.values + w.arenaReservations) := by
    rw [Multiset.add_comm]
    exact h.accounted
  rcases Heap.step_spec hacc call hheap with
    ⟨result, h', hrun, hacc', hkeeps, hfailed⟩ | ⟨p, limit, x, hcall, hx, hfull, hrun⟩
  · refine .inl ⟨.done result, { w with budgets := h'.budgets, reservations := h'.reservations },
      by simp [step, hrun], .of_same ⟨⟨h.shape, ?_, ?_⟩, h.pins⟩ ?_ (fun _ => rfl)
        (fun _ => rfl) (SameArenas.refl _) (fun _ _ hb => .inl hb)
        (fun _ _ _ _ _ _ hc => by cases hc)⟩
    · rw [Multiset.add_comm] at hacc'
      exact hacc'
    · intro a y hy
      obtain ⟨z, hz, howner⟩ := h.budget_live a y hy
      obtain ⟨z', hz', hsame⟩ := hkeeps _ z (hk a y hy) hz
      exact ⟨z', hz', fun hfull => hsame.trans (howner hfull)⟩
    intro hf
    cases result with
    | ok _ => cases hf
    | error e =>
      rw [hfailed e rfl]
      rfl
  · exact .inr ⟨⟨p, limit, x, by rw [hcall], hx, hfull⟩, by simp [step, hrun]⟩

/-- Every legal call has an effect, or saturates a child counter. -/
theorem step_effect (h : Sound w) (hl : w.Legal c) :
    (∃ o w', w.step c = some (o, w') ∧ Effect w c o w') ∨ (Saturates w c ∧ w.step c = none) := by
  cases c with
  | construct worker budget source initialCapacity maximumCapacity =>
    obtain ⟨y, hy⟩ := hl
    exact .inl (construct_effect h worker hy source initialCapacity maximumCapacity)
  | tryAllocate a worker bytes alignment reply =>
    obtain ⟨x, hx⟩ := hl
    exact .inl (allocation_effect h hx worker bytes alignment reply)
  | quiescentBoundary a worker =>
    obtain ⟨x, hx⟩ := hl
    exact .inl (boundary_effect h hx worker)
  | reset a worker k reply =>
    obtain ⟨⟨x, hx⟩, hk⟩ := hl
    exact .inl (reset_effect h hx (getElem?_eq_getElem hk) worker reply)
  | pin a worker =>
    obtain ⟨x, hx⟩ := hl
    exact .inl (pin_effect h hx worker)
  | defaultPin =>
    refine .inl (pins_effect w.arenas (w.pins.push {}) h.toFunded ?_
      (SameArenas.refl _) (fun _ _ => rfl) (fun _ _ => rfl)
      (fun _ _ _ _ _ _ _ hc => by cases hc) rfl)
    rw [values_push]
    exact PinsCounted.cons_empty.mpr h.pins
  | movePin source =>
    obtain ⟨p, hp⟩ := hl
    exact .inl (movePin_effect h hp)
  | assignPin target source =>
    obtain ⟨⟨old, hold⟩, moved, hm⟩ := hl
    exact .inl (assignPin_effect h hold hm)
  | destroyPin id =>
    obtain ⟨p, hp⟩ := hl
    exact .inl (destroyPin_effect h hp)
  | budgets call => exact budgets_effect h hl

theorem effect_of_step (h : Sound w) (hl : w.Legal c) (hstep : w.step c = some (o, w')) :
    Effect w c o w' := by
  rcases step_effect h hl with ⟨o', t, hrun, heff⟩ | ⟨_, hn⟩
  · rw [hrun] at hstep
    cases hstep
    exact heff
  · rw [hn] at hstep
    cases hstep

theorem empty_sound : Sound {} := by
  have hn : ∀ a, (Table.empty : Table BoundedArena).get? a = none := fun a => by
    simp [Table.empty, Table.get?]
  refine ⟨⟨?_, ?_, ?_⟩, ⟨?_, ?_⟩⟩
  · intro a x hx
    rw [hn] at hx
    cases hx
  · exact Heap.accounted_empty
  · intro a x hx
    rw [hn] at hx
    cases hx
  · intro a x hx
    rw [hn] at hx
    cases hx
  · intro p hp
    cases hp

theorem run_sound {trace : List (Call × Output)} (h : Runs.Run system {} trace w) :
    Sound w := by
  apply h.invariant _ empty_sound
  intro s c o t hs hl hstep
  exact (effect_of_step hs hl hstep).sound

end Effects

end Laghu.BoundedArenas
