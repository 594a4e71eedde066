import Laghu.HandleRuns
import Laghu.MappedRegions

/-!
What holds between the operations on mapped regions. The record of the handles is a run of
the handles alone, so that what is known about descriptors carries over. A region has a
mapping exactly when its member handle owns a descriptor. Each mapping goes through the
phases unborn, live and gone, and a mapping that a region holds is live.
-/

namespace Laghu.MappedRegions

open  Handles List ObjectTable.Table Option
open ObjectTable (Table)

/-- What is known of the handles. -/
structure Filed (w : World) : Prop where
  run : Runs.Run Handles.World.system {} w.handleTrace w.handles
  few : ∀ d, w.handles.holders d ≤ 1

/-- The region and its member own both resources or none. -/
def Owns (handles : Table Handle) (r : MappedRegion) : Prop :=
  ∃ h, handles.get? r.file = some h ∧ h.kind = .file ∧ (r.address = none → h.Vacant) ∧
    (r.address ≠ none → h.Armed)

structure Paired (handles : Table Handle) (regions : Table MappedRegion) : Prop where
  owns : ∀ i r, regions.get? i = some r → Owns handles r
  apart : ∀ i j r r', regions.get? i = some r → regions.get? j = some r' →
    r.file = r'.file → i = j

inductive Phase
  | unborn | live | gone
  deriving DecidableEq

def Phase.after : Phase → Event → Option Phase
  | .unborn, .mapped _ => some .live
  | .live, .unmap _ true => some .gone
  | .live, .unmap _ false => some .live
  | .live, .protect _ => some .live
  | .live, .flush _ => some .live
  | _, _ => none

/-- `none` is a history in which a mapping was used that was not there. -/
def phase (id : ℕ) (history : List Event) : Option Phase :=
  (history.filter fun e => e.id == id).foldlM Phase.after .unborn

structure Tracked (history : List Event) (created : ℕ) (regions : Table MappedRegion) : Prop where
  known : ∀ id, ∃ p, phase id history = some p
  unborn : ∀ id, created ≤ id → phase id history = some .unborn
  live : ∀ i r m, regions.get? i = some r → r.address = some m → phase m.id history = some .live
  unique : ∀ i j r r' m m', regions.get? i = some r → regions.get? j = some r' →
    r.address = some m → r'.address = some m' → m.id = m'.id → i = j

structure Sound (w : World) : Prop where
  filed : Filed w
  paired : Paired w.handles.handles w.regions
  tracked : Tracked w.history w.created w.regions

variable {e : Event}

theorem phase_same {id : ℕ} (history : List Event) (hid : e.id = id) :
    phase id (history ++ [e]) = (phase id history).bind fun p => p.after e := by
  unfold phase
  rw [filter_append, foldlM_append, filter_cons_of_pos (by simpa using hid)]
  simp

theorem phase_other {id : ℕ} (history : List Event) (hid : e.id ≠ id) :
    phase id (history ++ [e]) = phase id history := by
  unfold phase
  rw [filter_append, filter_cons_of_neg (by simpa using hid), filter_nil, append_nil]

section

variable {history : List Event} {created : ℕ} {regions regions' : Table MappedRegion}
  {handles handles' : Table Handle}

/-- The regions have been moved around, and no mapping got a second owner. -/
theorem Tracked.relabel (h : Tracked history created regions) {f : ℕ → ℕ}
    (hinjective : Function.Injective f)
    (hmoved : ∀ i r' m, regions'.get? i = some r' → r'.address = some m →
      ∃ r, regions.get? (f i) = some r ∧ r.address = some m) :
    Tracked history created regions' := by
  refine ⟨h.known, h.unborn, ?_, ?_⟩
  · intro i r' m hget haddr
    obtain ⟨r, hold, hsame⟩ := hmoved i r' m hget haddr
    exact h.live (f i) r m hold hsame
  intro i j r r' m m' hi hj haddr haddr' hid
  obtain ⟨s, hs, hm⟩ := hmoved i r m hi haddr
  obtain ⟨s', hs', hm'⟩ := hmoved j r' m' hj haddr'
  exact hinjective (h.unique (f i) (f j) s s' m m' hs hs' hm hm' hid)

/-- A live mapping was passed to a native function and stayed live. -/
theorem Tracked.touched (h : Tracked history created regions)
    (hl : phase e.id history = some .live) (ha : Phase.live.after e = some .live) :
    Tracked (history ++ [e]) created regions := by
  have hsame : ∀ id, phase id (history ++ [e]) = phase id history := by
    intro id
    by_cases hid : e.id = id
    · rw [phase_same history hid, ← hid, hl]
      exact ha
    · exact phase_other history hid
  refine ⟨?_, ?_, ?_, h.unique⟩
  · intro id
    rw [hsame]
    exact h.known id
  · intro id hid
    rw [hsame]
    exact h.unborn id hid
  intro i r m hget haddr
  rw [hsame]
  exact h.live i r m hget haddr

variable {r : MappedRegion}

/-- The mapping of a region was unmapped, and the region is empty. -/
theorem Tracked.unmapped (h : Tracked history created regions) {i : ℕ} {m : Mapping}
    (hget : regions.get? i = some r) (haddr : r.address = some m) :
    Tracked (history ++ [.unmap m.id true]) created (regions.set i r.emptied) := by
  have hl := h.live i r m hget haddr
  have ho : ∀ id, id ≠ m.id → phase id (history ++ [.unmap m.id true]) = phase id history := by
    intro id hne
    exact phase_other history (Ne.symm hne)
  have hgone : phase m.id (history ++ [.unmap m.id true]) = some .gone := by
    have hid : (Event.unmap m.id true).id = m.id := rfl
    rw [phase_same history hid, hl]
    rfl
  have hborn : m.id < created := by
    apply Nat.lt_of_not_le
    intro hle
    have hunborn := h.unborn m.id hle
    rw [hl] at hunborn
    cases hunborn
  refine ⟨?_, ?_, ?_, ?_⟩
  · intro id
    by_cases hid : id = m.id
    · exact ⟨.gone, by rw [hid]; exact hgone⟩
    · rw [ho id hid]
      exact h.known id
  · intro id hid
    rw [ho id (by omega)]
    exact h.unborn id hid
  · intro j r' m' hj haddr'
    rcases get?_set_cases hj with ⟨_, rfl⟩ | ⟨hne, hold⟩
    · cases haddr'
    rw [ho m'.id]
    · exact h.live j r' m' hold haddr'
    · intro hid
      exact hne (h.unique j i r' r m' m hold hget haddr' haddr hid)
  · intro j k r₁ r₂ m₁ m₂ hj hk h₁ h₂ hid
    rcases get?_set_cases hj with ⟨_, rfl⟩ | ⟨_, hold⟩
    · cases h₁
    rcases get?_set_cases hk with ⟨_, rfl⟩ | ⟨_, hold'⟩
    · cases h₂
    · exact h.unique j k r₁ r₂ m₁ m₂ hold hold' h₁ h₂ hid

theorem Tracked.mapped (h : Tracked history created regions) {m : Mapping}
    (haddr : r.address = some m) (hid : m.id = created) :
    Tracked (history ++ [.mapped created]) (created + 1) (regions.push r) := by
  have ho : ∀ id, id ≠ created → phase id (history ++ [.mapped created]) = phase id history := by
    intro id hne
    exact phase_other history (Ne.symm hne)
  have hnew : phase created (history ++ [.mapped created]) = some .live := by
    have hborn : (Event.mapped created).id = created := rfl
    rw [phase_same history hborn, h.unborn created (Nat.le_refl _)]
    rfl
  have hold : ∀ i r' m', regions.get? i = some r' → r'.address = some m' → m'.id ≠ created := by
    intro i r' m' hget haddr' heq
    have hl := h.live i r' m' hget haddr'
    rw [h.unborn m'.id (by omega)] at hl
    cases hl
  refine ⟨?_, ?_, ?_, ?_⟩
  · intro id
    by_cases heq : id = created
    · exact ⟨.live, by rw [heq]; exact hnew⟩
    · rw [ho id heq]
      exact h.known id
  · intro id hle
    rw [ho id (by omega)]
    exact h.unborn id (by omega)
  · intro i r' m' hget haddr'
    rcases get?_push_cases hget with ⟨_, rfl⟩ | hpre
    · obtain rfl : m = m' := some.inj (haddr.symm.trans haddr')
      rw [hid]
      exact hnew
    · rw [ho m'.id (hold i r' m' hpre haddr')]
      exact h.live i r' m' hpre haddr'
  intro i j r₁ r₂ m₁ m₂ hi hj h₁ h₂ heq
  rcases get?_push_cases hi with ⟨hi', rfl⟩ | hi'
  · obtain rfl : m = m₁ := some.inj (haddr.symm.trans h₁)
    rcases get?_push_cases hj with ⟨hj', _⟩ | hj'
    · exact hi'.trans hj'.symm
    · exact absurd (heq.symm.trans hid) (hold j r₂ m₂ hj' h₂)
  rcases get?_push_cases hj with ⟨_, rfl⟩ | hj'
  · obtain rfl : m = m₂ := some.inj (haddr.symm.trans h₂)
    exact absurd (heq.trans hid) (hold i r₁ m₁ hi' h₁)
  · exact h.unique i j r₁ r₂ m₁ m₂ hi' hj' h₁ h₂ heq

/-- The regions keep their members. -/
theorem Paired.rework (h : Paired handles regions)
    (hfile : ∀ i r', regions'.get? i = some r' → ∃ r, regions.get? i = some r ∧ r'.file = r.file)
    (howns : ∀ i r', regions'.get? i = some r' → Owns handles' r') : Paired handles' regions' := by
  refine ⟨howns, ?_⟩
  intro i j r r' hi hj hsame
  obtain ⟨s, hs, hfile₁⟩ := hfile i r hi
  obtain ⟨s', hs', hfile₂⟩ := hfile j r' hj
  exact h.apart i j s s' hs hs' (hfile₁.symm.trans (hsame.trans hfile₂))

theorem Owns.of_get? (h : Owns handles r) (hget : handles'.get? r.file = handles.get? r.file) :
    Owns handles' r := by
  unfold Owns
  rw [hget]
  exact h

/-- A new region gets a member of its own. -/
theorem Paired.push (h : Paired handles regions) (howns : Owns handles' r)
    (hk : ∀ i s, regions.get? i = some s → handles'.get? s.file = handles.get? s.file)
    (hfresh : ∀ i s, regions.get? i = some s → s.file ≠ r.file) :
    Paired handles' (regions.push r) := by
  refine ⟨?_, ?_⟩
  · intro i s hget
    rcases get?_push_cases hget with ⟨_, rfl⟩ | hold
    · exact howns
    · exact (h.owns i s hold).of_get? (hk i s hold)
  intro i j s s' hi hj hsame
  rcases get?_push_cases hi with ⟨hi', rfl⟩ | hi'
  · rcases get?_push_cases hj with ⟨hj', _⟩ | hj'
    · exact hi'.trans hj'.symm
    · exact absurd hsame.symm (hfresh j s' hj')
  rcases get?_push_cases hj with ⟨_, rfl⟩ | hj'
  · exact absurd hsame (hfresh i s hi')
  · exact h.apart i j s s' hi' hj' hsame

end

end Laghu.MappedRegions
