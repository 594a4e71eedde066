import Laghu.ArenaGenerations

/-!
Where the block of an arena comes from. It is the one that the source handed out for the
first allocation, stays while the arena grows, and is gone after a reset.
-/

namespace Laghu.BoundedArenas

open Contract ObjectTable MemoryBudgets Views Option BoundedArena Table

section Blocks

variable {a a' : BoundedArena} {bs bs' : Budgets} {worker : WorkerId} {bytes alignment : Size}
  {reply : Result MutableByteView}

theorem firstAcquisition_ok {maximum : Size} {acquired captured : MutableByteView}
    (h : firstAcquisition maximum reply captured = (.ok (), acquired)) :
    reply = .ok acquired := by
  unfold firstAcquisition at h
  split at h
  · cases h
  split at h
  · cases h
  · cases h
    rfl

variable {result : Result Unit}

theorem extendTo_storage {target : Size}
    (h : a.extendTo bs worker target reply = some (result, a', bs')) :
    a'.storage = a.storage ∨ reply = .ok a'.storage := by
  unfold extendTo at h
  split at h
  · obtain ⟨⟨first, bs₁, acquired⟩, hreserve, h⟩ := bind_eq_some_iff.mp h
    cases first with
    | error e =>
      cases h
      exact .inl rfl
    | ok reservation =>
      obtain ⟨_, _, h⟩ := bind_eq_some_iff.mp h
      cases h
      obtain ⟨⟨reserved, bs₂⟩, _, hreserve⟩ := bind_eq_some_iff.mp hreserve
      cases reserved with
      | error e => cases hreserve
      | ok reserved =>
        dsimp only at hreserve
        split at hreserve
        · obtain ⟨_, _, hreserve⟩ := bind_eq_some_iff.mp hreserve
          cases hreserve
        next hacq =>
        cases hreserve
        exact .inr (firstAcquisition_ok hacq)
  · obtain ⟨⟨grown, reservation, bs₁⟩, _, h⟩ := bind_eq_some_iff.mp h
    cases grown <;>
    · cases h
      exact .inl rfl

theorem ensureCapacity_storage {required : Size}
    (h : a.ensureCapacity bs worker required reply = some (result, a', bs')) :
    a'.storage = a.storage ∨ reply = .ok a'.storage := by
  unfold ensureCapacity at h
  iterate 2
    split at h
    · cases h
      exact .inl rfl
  · obtain ⟨doubled, _, h⟩ := bind_eq_some_iff.mp h
    exact extendTo_storage h

variable {this i : ℕ}

/-- The block of an arena is the one its source handed out. -/
theorem tryAllocate_storage {result : Result ArenaView}
    (h : a.tryAllocate this bs worker bytes alignment reply = some (result, a', bs')) :
    a'.storage = a.storage ∨ reply = .ok a'.storage := by
  unfold tryAllocate at h
  iterate 4
    split at h
    · cases h
      exact .inl rfl
  unfold allocateAt at h
  split at h
  · cases h
    exact .inl rfl
  obtain ⟨⟨ensured, a₁, bs₁⟩, hensure, h⟩ := bind_eq_some_iff.mp h
  have hst := ensureCapacity_storage hensure
  cases ensured with
  | error e =>
    cases h
    exact hst
  | ok u =>
    obtain ⟨range, _, h⟩ := bind_eq_some_iff.mp h
    split at h
    · cases h
    · cases h
      exact hst

theorem reset_storage {boundary : ArenaQuiescentBoundary} {answer : Result Unit}
    (h : a.reset this bs worker boundary answer = some (result, a', bs')) :
    a'.storage = a.storage ∨ a'.storage = .empty := by
  unfold reset at h
  iterate 6
    split at h
    · cases h
      exact .inl rfl
  obtain ⟨_, _, h⟩ := bind_eq_some_iff.mp h
  cases h
  exact .inr rfl

theorem pin_storage {result : Result ArenaPin} (h : a.pin this worker = (result, a')) :
    a'.storage = a.storage := by
  unfold pin at h
  split at h
  · cases h
    rfl
  · split at h <;> cases h <;> rfl

variable {w' w : World} {x' : BoundedArena}

theorem releasePin_storage {p : ArenaPin} (h : w.releasePin p = some w')
    (hx' : w'.arenas.get? i = some x') :
    ∃ x, w.arenas.get? i = some x ∧ x'.storage = x.storage := by
  unfold World.releasePin at h
  split at h
  · cases h
    exact ⟨x', hx', rfl⟩
  obtain ⟨a, ha, h⟩ := bind_eq_some_iff.mp h
  obtain ⟨a', hrel, h⟩ := bind_eq_some_iff.mp h
  cases h
  rcases get?_set_cases hx' with ⟨rfl, rfl⟩ | ⟨_, hold⟩
  · refine ⟨a, ha, ?_⟩
    unfold releasePin at hrel
    split at hrel
    · cases hrel
    · cases hrel
      rfl
  · exact ⟨x', hold, rfl⟩

/-- A call leaves the blocks where they are, but for the first allocation of an arena and for
a reset. -/
theorem step_storage {c : Call} {o : Output} (hstep : w.step c = some (o, w'))
    (hx' : w'.arenas.get? i = some x') :
    x'.storage = .empty ∨ (∃ x, w.arenas.get? i = some x ∧ x'.storage = x.storage) ∨
      ∃ worker bytes alignment, c = .tryAllocate i worker bytes alignment (.ok x'.storage) := by
  cases c with
  | construct worker budget source initialCapacity maximumCapacity =>
    cases hstep
    rcases get?_push_cases hx' with ⟨_, rfl⟩ | hold
    · exact .inl rfl
    · exact .inr (.inl ⟨x', hold, rfl⟩)
  | tryAllocate arena worker bytes alignment reply =>
    obtain ⟨a, ha, hstep⟩ := bind_eq_some_iff.mp hstep
    obtain ⟨⟨result, a', bs⟩, hrun, hstep⟩ := bind_eq_some_iff.mp hstep
    cases hstep
    rcases get?_set_cases hx' with ⟨rfl, rfl⟩ | ⟨_, hold⟩
    · rcases tryAllocate_storage hrun with hsame | hreply
      · exact .inr (.inl ⟨a, ha, hsame⟩)
      · exact .inr (.inr ⟨worker, bytes, alignment, by rw [hreply]⟩)
    · exact .inr (.inl ⟨x', hold, rfl⟩)
  | quiescentBoundary arena worker =>
    obtain ⟨a, ha, hstep⟩ := bind_eq_some_iff.mp hstep
    split at hstep <;> cases hstep <;> exact .inr (.inl ⟨x', hx', rfl⟩)
  | reset arena worker boundary reply =>
    obtain ⟨a, ha, hstep⟩ := bind_eq_some_iff.mp hstep
    obtain ⟨issued, _, hstep⟩ := bind_eq_some_iff.mp hstep
    obtain ⟨⟨result, a', bs⟩, hrun, hstep⟩ := bind_eq_some_iff.mp hstep
    cases hstep
    rcases get?_set_cases hx' with ⟨rfl, rfl⟩ | ⟨_, hold⟩
    · rcases reset_storage hrun with hsame | he
      · exact .inr (.inl ⟨a, ha, hsame⟩)
      · exact .inl he
    · exact .inr (.inl ⟨x', hold, rfl⟩)
  | pin arena worker =>
    obtain ⟨a, ha, hstep⟩ := bind_eq_some_iff.mp hstep
    split at hstep
    · cases hstep
      exact .inr (.inl ⟨x', hx', rfl⟩)
    next hpin =>
    cases hstep
    rcases get?_set_cases hx' with ⟨rfl, rfl⟩ | ⟨_, hold⟩
    · exact .inr (.inl ⟨a, ha, pin_storage hpin⟩)
    · exact .inr (.inl ⟨x', hold, rfl⟩)
  | defaultPin =>
    cases hstep
    exact .inr (.inl ⟨x', hx', rfl⟩)
  | movePin source =>
    obtain ⟨p, _, hstep⟩ := bind_eq_some_iff.mp hstep
    cases hstep
    exact .inr (.inl ⟨x', hx', rfl⟩)
  | assignPin target source =>
    obtain ⟨v, hassign, hstep⟩ := bind_eq_some_iff.mp hstep
    cases hstep
    unfold World.assignPin at hassign
    split at hassign
    · cases hassign
      exact .inr (.inl ⟨x', hx', rfl⟩)
    obtain ⟨old, _, hassign⟩ := bind_eq_some_iff.mp hassign
    obtain ⟨moved, _, hassign⟩ := bind_eq_some_iff.mp hassign
    obtain ⟨v', hrel, hassign⟩ := bind_eq_some_iff.mp hassign
    cases hassign
    exact .inr (.inl (releasePin_storage hrel hx'))
  | destroyPin pin =>
    obtain ⟨p, _, hstep⟩ := bind_eq_some_iff.mp hstep
    obtain ⟨v, hrel, hstep⟩ := bind_eq_some_iff.mp hstep
    cases hstep
    exact .inr (.inl (releasePin_storage hrel hx'))
  | budgets call =>
    obtain ⟨⟨result, h⟩, _, hstep⟩ := bind_eq_some_iff.mp hstep
    cases hstep
    exact .inr (.inl ⟨x', hx', rfl⟩)

/-- Only an allocation returns a view. -/
theorem allocation_of_view {c : Call} {result : Result ArenaView}
    (hstep : w.step c = some (.view result, w')) :
    ∃ i worker bytes alignment reply, c = .tryAllocate i worker bytes alignment reply := by
  cases c with
  | tryAllocate i worker bytes alignment reply => exact ⟨i, worker, bytes, alignment, reply, rfl⟩
  | quiescentBoundary arena worker | pin arena worker =>
    obtain ⟨a, _, hstep⟩ := bind_eq_some_iff.mp hstep
    split at hstep <;> cases hstep
  | _ => simp [World.step, bind_eq_some_iff] at hstep

/-- An empty allocation is no range. -/
theorem tryAllocate_empty {v : ArenaView}
    (h : a.tryAllocate this bs worker 0#64 alignment reply = some (.ok v, a', bs')) :
    v.bytes = .empty := by
  unfold tryAllocate at h
  split at h
  · cases h
  split at h
  · cases h
  rw [if_pos rfl] at h
  cases h
  rfl

/-- What an allocation hands out. -/
theorem allocation_view {v : ArenaView} (hs : Sound w)
    (hl : w.Legal (.tryAllocate i worker bytes alignment reply))
    (hstep : w.step (.tryAllocate i worker bytes alignment reply) = some (.view (.ok v), w')) :
    ∃ x x', w.arenas.get? i = some x ∧ w'.arenas.get? i = some x' ∧ v.arena = some i ∧
      v.generation = x.generation ∧ x'.generation = x.generation ∧ v.bytes.size = bytes ∧
      (v.bytes = .empty ∨ (bytes ≠ 0#64 ∧ Allocated x x' bytes alignment v.bytes)) := by
  have heff := effect_of_step hs hl hstep
  obtain ⟨x, hx, harena, hgen⟩ := heff.views i worker bytes alignment reply v rfl rfl
  obtain ⟨x', hx', hk⟩ := heff.arena_step hx
  refine ⟨x, x', hx, hx', harena, hgen, ?_⟩
  cases hk with
  | idle _ halloc hsame =>
    have h0 : bytes = 0#64 := by
      simpa [isAllocation] using halloc
    have he : v.bytes = .empty := by
      obtain ⟨a, _, hstep⟩ := bind_eq_some_iff.mp hstep
      obtain ⟨⟨result, a', bs⟩, hrun, hstep⟩ := bind_eq_some_iff.mp hstep
      cases hstep
      rw [h0] at hrun
      exact tryAllocate_empty hrun
    refine ⟨(unpinned_eq hsame).2.2.2, ?_, .inl he⟩
    rw [he, h0]
    rfl
  | allocated hc hout hb h =>
    cases hc
    cases hout
    exact ⟨h.generation_eq, h.size_eq, .inr ⟨hb, h⟩⟩
  | reset hc hout => cases hout

end Blocks

end Laghu.BoundedArenas
