import Laghu.ArenaBlocks
import Laghu.JsonDocuments

/-!
The ranges that arenas hand out to documents and to the program. A range is in use until its
arena is reset, ranges in use do not overlap, and what an object in one of them holds is
not touched by the next allocation or by the reset of another arena.
-/

namespace Laghu.JsonDocuments

open Contract BoundedArenas ObjectMemory Views Option List

def ApartViews (r r' : MutableByteView) : Prop :=
  Apart r.data r.size.toNat r'.data r'.size.toNat

/-- The arena has not been reset since. -/
def Spot.Current (s : Spot) (w : World) : Prop :=
  ∃ x, w.arenas.arenas.get? s.arena = some x ∧ x.generation = s.generation

/-- The range lies in the used part of the block. -/
structure Inside (x : BoundedArena) (r : MutableByteView) : Prop where
  start : x.storage.data ≤ r.data
  finish : r.data + r.size.toNat ≤ x.storage.data + x.offset.toNat

def Spot.Sits (s : Spot) (w : World) : Prop :=
  ∃ x, w.arenas.arenas.get? s.arena = some x ∧ s.generation.toNat ≤ x.generation.toNat ∧
    (x.generation = s.generation → s.range.size ≠ 0#64 → Inside x s.range)

def Spot.Has (s : Spot) (w : World) (object : Object) : Prop :=
  Holds w.memory s.range.data s.range.size.toNat object

structure Grounded (w : World) : Prop where
  sound : BoundedArenas.Sound w.arenas
  blocks : ∀ i j x y, i ≠ j → w.arenas.arenas.get? i = some x → w.arenas.arenas.get? j = some y →
    ApartViews x.storage y.storage
  sits : ∀ s ∈ w.spots, s.Sits w
  apart : ∀ s ∈ w.spots, ∀ t ∈ w.spots, s.owner ≠ t.owner → s.Current w → t.Current w →
    s.range.size ≠ 0#64 → t.range.size ≠ 0#64 → ApartViews s.range t.range

/-- What is in use afterwards was in use before, and kept its object. -/
def Framed (w w' : World) : Prop :=
  ∀ s ∈ w.spots, s.Current w' → s.Current w ∧
    (s.range.size ≠ 0#64 → ∀ object, s.Has w object → s.Has w' object)

/-- The documents, the values and the record of the documents stayed. -/
structure Carried (w w' : World) : Prop where
  documents_eq : w'.documents = w.documents
  values_eq : w'.values = w.values
  views_eq : w'.views = w.views
  births_eq : w'.births = w.births

section

variable {w w' : World} {s t : Spot} {x x' : BoundedArena} {r r' : MutableByteView}

theorem Inside.capacity_ne (hs : Shape x) (hin : Inside x r) (hsize : r.size ≠ 0#64) :
    x.capacity ≠ 0#64 := by
  have hpos : r.size.toNat ≠ 0 := fun h0 => hsize ((size_eq_zero _).mpr h0)
  have hstart := hin.start
  have hfin := hin.finish
  have hused := hs.offset_le
  rw [ne_eq, size_eq_zero]
  omega

/-- A range of one block is apart from what is apart from the block. -/
theorem Inside.apart (hs : Shape x) (hin : Inside x r) (hsize : r.size ≠ 0#64)
    (hblock : ApartViews x.storage r') : ApartViews r r' := by
  have hl := hs.storage_size (hin.capacity_ne hs hsize)
  have hstart := hin.start
  have hfin := hin.finish
  have hused := hs.offset_le
  have hcap := hs.capacity_le
  unfold ApartViews Apart at hblock ⊢
  omega

theorem Spot.Current.unique (hcur : s.Current w)
    (hx : w.arenas.arenas.get? s.arena = some x) : x.generation = s.generation := by
  obtain ⟨y, hy, hgen⟩ := hcur
  obtain rfl : x = y := some.inj (hx.symm.trans hy)
  exact hgen

theorem Spot.Sits.inside (hsits : s.Sits w) (hcur : s.Current w) (hsize : s.range.size ≠ 0#64) :
    ∃ x, w.arenas.arenas.get? s.arena = some x ∧ x.generation = s.generation ∧
      Inside x s.range := by
  obtain ⟨x, hx, _, hin⟩ := hsits
  have hgen := hcur.unique hx
  exact ⟨x, hx, hgen, hin hgen hsize⟩

/-- The block that a call may ask for is not in use. -/
abbrev Supplies (w : World) (c : BoundedArenas.Call) : Prop :=
  ∀ arena worker bytes alignment reply,
    c = .tryAllocate arena worker bytes alignment reply → w.Supplied arena reply

section Step

variable {arenas' : BoundedArenas.World} {c : BoundedArenas.Call} {o : BoundedArenas.Output}

theorem blocks_step (hg : Grounded w) (hstep : w.arenas.step c = some (o, arenas'))
    (hsup : Supplies w c) {i j : ℕ} {y : BoundedArena} (hne : i ≠ j)
    (hx : arenas'.arenas.get? i = some x) (hy : arenas'.arenas.get? j = some y) :
    ApartViews x.storage y.storage := by
  rcases step_storage hstep hx with he | ⟨x₀, hx₀, hsame⟩ | ⟨worker, bytes, alignment, hc⟩
  · rw [he]
    exact .inl (Nat.zero_le _)
  · rcases step_storage hstep hy with he | ⟨y₀, hy₀, hsame'⟩ | ⟨worker, bytes, alignment, hc⟩
    · rw [he]
      exact .inr (Nat.zero_le _)
    · rw [hsame, hsame']
      exact hg.blocks i j x₀ y₀ hne hx₀ hy₀
    · rw [hsame]
      exact (hsup j worker bytes alignment _ hc y.storage rfl i x₀ hne hx₀).symm
  rcases step_storage hstep hy with he | ⟨y₀, hy₀, hsame'⟩ | ⟨_, _, _, hc'⟩
  · rw [he]
    exact .inr (Nat.zero_le _)
  · rw [hsame']
    exact hsup i worker bytes alignment _ hc x.storage rfl j y₀ (Ne.symm hne) hy₀
  · rw [hc] at hc'
    exact absurd (BoundedArenas.Call.tryAllocate.inj hc').1 hne

theorem reset_lt {x x' : BoundedArena} (hl : x.generation ≠ sizeMax)
    (hn : x'.generation = x.generation + 1) : x.generation.toNat < x'.generation.toNat := by
  rw [hn]
  unfold sizeMax at hl
  bv_omega

/-- A range moves no more once it is handed out. -/
theorem Spot.Sits.step (hs : BoundedArenas.Sound w.arenas)
    (heff : Effect w.arenas c o arenas') (ha : w'.arenas = arenas') (hsits : s.Sits w) :
    s.Sits w' ∧ (s.Current w' → s.Current w) ∧
      (isReset s.arena c o = false → s.Current w → s.Current w') ∧
      (isReset s.arena c o = true → ¬ s.Current w') := by
  obtain ⟨x, hx, hle, hinside⟩ := hsits
  obtain ⟨x', hx', hk⟩ := heff.arena_step hx
  rw [← ha] at hx'
  have hback : x'.generation = x.generation → s.Current w' → s.Current w := by
    intro hsame hcur
    exact ⟨x, hx, hsame.symm.trans (hcur.unique hx')⟩
  have hforth : x'.generation = x.generation → s.Current w → s.Current w' := by
    intro hsame hcur
    exact ⟨x', hx', hsame.trans (hcur.unique hx)⟩
  cases hk with
  | idle hreset _ hsame =>
    obtain ⟨hst, _, hoff, hgen⟩ := unpinned_eq hsame
    refine ⟨⟨x', hx', by rw [hgen]; exact hle, ?_⟩, hback hgen,
      fun _ => hforth hgen, fun htrue => by rw [hreset] at htrue; cases htrue⟩
    intro heq hsize
    rw [hgen] at heq
    obtain ⟨hstart, hfin⟩ := hinside heq hsize
    exact ⟨by rw [hst]; exact hstart, by rw [hst, hoff]; exact hfin⟩
  | allocated hc hout _ halloc =>
    have hgen := halloc.generation_eq
    refine ⟨⟨x', hx', by rw [hgen]; exact hle, ?_⟩, hback hgen,
      fun _ => hforth hgen, fun htrue => by rw [hc] at htrue; cases htrue⟩
    intro heq hsize
    rw [hgen] at heq
    have hin := hinside heq hsize
    have hbase := halloc.base (hin.capacity_ne (hs.shape s.arena x hx) hsize)
    obtain ⟨start, _, _, hbehind, hend⟩ := halloc.place
    have hfin := hin.finish
    exact ⟨by rw [hbase]; exact hin.start, by rw [hbase]; omega⟩
  | reset hc hout _ _ _ _ hl hn =>
    have hlt := reset_lt hl hn
    have hgone : ¬ s.Current w' := by
      intro hcur
      have hsame := hcur.unique hx'
      rw [hsame] at hlt
      omega
    refine ⟨⟨x', hx', by omega, ?_⟩, fun hcur => absurd hcur hgone, ?_, fun _ => hgone⟩
    · intro heq
      rw [heq] at hlt
      omega
    intro hfalse
    rw [hc, hout, isReset_self] at hfalse
    cases hfalse

/-- What an allocation hands out is apart from everything in use. -/
theorem allocation_apart (hg : Grounded w) (hsits : s.Sits w) (hcur : s.Current w)
    (hsize : s.range.size ≠ 0#64) {i : ℕ} {bytes alignment : Size}
    (hx : w.arenas.arenas.get? i = some x)
    (hblocks : ∀ j y, i ≠ j → w.arenas.arenas.get? j = some y → ApartViews y.storage x'.storage)
    (halloc : Allocated x x' bytes alignment r) (hb : bytes ≠ 0#64) : ApartViews s.range r := by
  obtain ⟨y, hy, _, hin⟩ := hsits.inside hcur hsize
  obtain ⟨start, hdata, _, hbehind, hend⟩ := halloc.place
  have hsize_eq : r.size.toNat = bytes.toNat := by rw [halloc.size_eq]
  by_cases hsame : i = s.arena
  · rw [hsame, hy] at hx
    obtain rfl : y = x := some.inj hx
    have hbase := halloc.base (hin.capacity_ne (hg.sound.shape _ _ hy) hsize)
    have hfin := hin.finish
    rw [hbase] at hdata
    left
    omega
  · have hnew : Inside x' r := ⟨by omega, by omega⟩
    have hrange : r.size ≠ 0#64 := by rw [halloc.size_eq]; exact hb
    have hblock := hin.apart (hg.sound.shape _ _ hy) hsize (hblocks s.arena y hsame hy)
    exact (hnew.apart halloc.shape hrange hblock.symm).symm

end Step

/-- What a call on an arena does, besides what it does to the arenas. -/
inductive Consequence (w w' : World) (owner : Owner) (c : BoundedArenas.Call) :
    BoundedArenas.Output → Prop
  | reset {arena : ℕ} (history_eq : w'.history = w.history ++ [.reset arena])
      (spots_eq : w'.spots = w.spots) (gone : ∀ s ∈ w.spots, s.arena = arena → ¬ s.Current w')
      (kept : ∀ s ∈ w.spots, s.arena ≠ arena → s.Current w → s.Current w') :
      Consequence w w' owner c (.done (.ok ()))
  | allocated {arena : ℕ} {worker : WorkerId} {bytes alignment : Size}
      {reply : Result MutableByteView} {v : ArenaView}
      (call_eq : c = .tryAllocate arena worker bytes alignment reply)
      (history_eq : w'.history = w.history)
      (spots_eq : w'.spots = w.spots ++ [⟨arena, v.generation, v.bytes, owner⟩])
      (arena_eq : v.arena = some arena) (size_eq : v.bytes.size = bytes)
      (current : Spot.Current ⟨arena, v.generation, v.bytes, owner⟩ w')
      (kept : ∀ s ∈ w.spots, s.Current w → s.Current w') :
      Consequence w w' owner c (.view (.ok v))
  | other {o : BoundedArenas.Output} (history_eq : w'.history = w.history)
      (spots_eq : w'.spots = w.spots) (kept : ∀ s ∈ w.spots, s.Current w → s.Current w')
      (silent : ∀ v, o ≠ .view (.ok v)) : Consequence w w' owner c o

section

variable {owner : Owner} {c : BoundedArenas.Call} {o : BoundedArenas.Output}
  {arenas' : BoundedArenas.World}

theorem Grounded.onArenas (hg : Grounded w) (hl : w.arenas.Legal c) (hsup : Supplies w c)
    (hstep : w.arenas.step c = some (o, arenas')) (ha : w'.arenas = arenas')
    (hspots : w'.spots = w.spots) : Grounded w' := by
  have heff := effect_of_step hg.sound hl hstep
  have hback : ∀ s ∈ w.spots, s.Sits w' ∧ (s.Current w' → s.Current w) := by
    intro s hs
    obtain ⟨hsits, hcur, _⟩ := (hg.sits s hs).step hg.sound heff ha
    exact ⟨hsits, hcur⟩
  refine ⟨by rw [ha]; exact heff.sound, ?_, ?_, ?_⟩
  · intro i j x y hne hx hy
    rw [ha] at hx hy
    exact blocks_step hg hstep hsup hne hx hy
  · intro s hs
    rw [hspots] at hs
    exact (hback s hs).1
  intro s hs t ht howner hcur hcur'
  rw [hspots] at hs ht
  exact hg.apart s hs t ht howner ((hback s hs).2 hcur) ((hback t ht).2 hcur')

/-- An allocation by the owner. -/
theorem allocated_spec (w' : World) (owner : Owner) (hg : Grounded w) {arena : ℕ}
    {worker : WorkerId}
    {bytes alignment : Size} {reply : Result MutableByteView} {v : ArenaView}
    (hl : w.arenas.Legal (.tryAllocate arena worker bytes alignment reply))
    (hsup : w.Supplied arena reply)
    (hstep : w.arenas.step (.tryAllocate arena worker bytes alignment reply) =
      some (.view (.ok v), arenas'))
    (ha : w'.arenas = arenas')
    (hspots : w'.spots = w.spots ++ [⟨arena, v.generation, v.bytes, owner⟩])
    (hmemory : w'.memory = claim w.memory v.bytes.data v.bytes.size.toNat) :
    Grounded w' ∧ Framed w w' ∧ Spot.Current ⟨arena, v.generation, v.bytes, owner⟩ w' ∧
      (∀ s ∈ w.spots, s.Current w → s.Current w') ∧ v.arena = some arena ∧
      v.bytes.size = bytes := by
  have hsup' : Supplies w (.tryAllocate arena worker bytes alignment reply) := by
    intro i worker' bytes' alignment' reply' heq
    cases heq
    exact hsup
  have heff := effect_of_step hg.sound hl hstep
  obtain ⟨x, x', hx, hx', harena, hgen, hgen', hsize, hrange⟩ :=
    allocation_view hg.sound hl hstep
  have hcur : Spot.Current ⟨arena, v.generation, v.bytes, owner⟩ w' :=
    ⟨x', by rw [ha]; exact hx', hgen'.trans hgen.symm⟩
  -- what the arenas look like does not depend on the record
  have hpre : Grounded { w with arenas := arenas' } :=
    hg.onArenas hl hsup' hstep rfl rfl
  have hback : ∀ s ∈ w.spots, (s.Current w' → s.Current w) ∧ (s.Current w → s.Current w') := by
    intro s hs
    obtain ⟨_, hcur, hkept, _⟩ := (hg.sits s hs).step hg.sound heff ha
    exact ⟨hcur, hkept rfl⟩
  have hnew : ∀ s ∈ w.spots, s.Current w → s.range.size ≠ 0#64 → v.bytes.size ≠ 0#64 →
      ApartViews s.range v.bytes := by
    intro s hs hs' hnz hnonempty
    rcases hrange with he | ⟨hb, halloc⟩
    · rw [he] at hnonempty
      exact absurd rfl hnonempty
    apply allocation_apart hg (hg.sits s hs) hs' hnz hx _ halloc hb
    intro j y hne hy
    obtain ⟨y', hy', hk⟩ := heff.arena_step hy
    have hblock := blocks_step hg hstep hsup' hne hx' hy'
    cases hk with
    | idle _ _ hsame =>
      rw [(unpinned_eq hsame).1] at hblock
      exact hblock.symm
    | allocated hc hout =>
      exact absurd (BoundedArenas.Call.tryAllocate.inj hc).1 hne
    | reset hc hout => cases hc
  refine ⟨⟨by rw [ha]; exact hpre.sound, ?_, ?_, ?_⟩, ?_, hcur,
    fun s hs => (hback s hs).2, harena, hsize⟩
  · rw [ha]
    exact hpre.blocks
  · intro s hs
    rw [hspots, mem_append, mem_singleton] at hs
    rcases hs with hold | rfl
    · obtain ⟨y, hy, hr⟩ := hpre.sits s hold
      exact ⟨y, by rw [ha]; exact hy, hr⟩
    refine ⟨x', by rw [ha]; exact hx', ?_, ?_⟩
    · rw [hgen, hgen']
    intro _ hnonempty
    rcases hrange with he | ⟨hb, halloc⟩
    · rw [he] at hnonempty
      exact absurd rfl hnonempty
    obtain ⟨start, hdata, _, _, hend⟩ := halloc.place
    have hsize' : v.bytes.size.toNat = bytes.toNat := by rw [hsize]
    exact ⟨by dsimp only; omega, by dsimp only; omega⟩
  · intro s hs t ht howner hs' ht' hsize₁ hsize₂
    rw [hspots, mem_append, mem_singleton] at hs ht
    rcases hs with hold | rfl
    · have hold' := (hback s hold).1 hs'
      rcases ht with hold₂ | rfl
      · exact hg.apart s hold t hold₂ howner hold' ((hback t hold₂).1 ht') hsize₁ hsize₂
      · exact hnew s hold hold' hsize₁ hsize₂
    · rcases ht with hold₂ | rfl
      · exact (hnew t hold₂ ((hback t hold₂).1 ht') hsize₂ hsize₁).symm
      · exact absurd rfl howner
  · intro s hs hcur'
    refine ⟨(hback s hs).1 hcur', ?_⟩
    intro hnz object hhas
    unfold Spot.Has
    rw [hmemory]
    by_cases hnonempty : v.bytes.size = 0#64
    · rw [hnonempty]
      exact hhas
    · exact Holds.claim hhas (hnew s hs ((hback s hs).1 hcur') hnz hnonempty)

theorem onArena_spec (owner : Owner) (hg : Grounded w) (hl : w.arenas.Legal c)
    (hsup : Supplies w c) (hstep : w.arenas.step c = some (o, arenas')) :
    ∃ w', w.onArena owner c = some (o, w') ∧ w'.arenas = arenas' ∧ Grounded w' ∧ Framed w w' ∧
      Carried w w' ∧ Consequence w w' owner c o := by
  have heff := effect_of_step hg.sound hl hstep
  have hm : ∀ s ∈ w.spots, (s.Current { w with arenas := arenas' } → s.Current w) ∧
      (isReset s.arena c o = false → s.Current w → s.Current { w with arenas := arenas' }) ∧
      (isReset s.arena c o = true → ¬ s.Current { w with arenas := arenas' }) := by
    intro s hs
    exact ((hg.sits s hs).step hg.sound heff rfl).2
  unfold World.onArena
  rw [hstep]
  dsimp only [bind_eq_bind, bind_some]
  split
  · next arena worker bytes alignment reply v =>
    obtain ⟨hg', hframed, hcur, hk, harena, hsize⟩ := allocated_spec { w with
        arenas := arenas'
        memory := claim w.memory v.bytes.data v.bytes.size.toNat
        spots := w.spots ++ [⟨arena, v.generation, v.bytes, owner⟩] } owner hg hl
      (hsup arena worker bytes alignment reply rfl) hstep rfl rfl rfl
    exact ⟨_, rfl, rfl, hg', hframed, ⟨rfl, rfl, rfl, rfl⟩,
      .allocated rfl rfl rfl harena hsize hcur hk⟩
  · next arena worker boundary reply =>
    obtain ⟨x, hx⟩ := hl.1
    rw [hx]
    refine ⟨_, rfl, rfl, hg.onArenas hl hsup hstep rfl rfl, ?_,
      ⟨rfl, rfl, rfl, rfl⟩, .reset rfl rfl ?_ ?_⟩
    · intro s hs hcur
      obtain ⟨hback, _, hgone⟩ := hm s hs
      have hpre := hback hcur
      refine ⟨hpre, ?_⟩
      intro hnz object hhas
      have ho : s.arena ≠ arena := by
        intro heq
        refine hgone ?_ hcur
        rw [heq]
        exact isReset_self _ _ _ _
      obtain ⟨y, hy, _, hin⟩ := (hg.sits s hs).inside hpre hnz
      exact Holds.claim hhas (hin.apart (hg.sound.shape _ _ hy) hnz
        (hg.blocks s.arena arena y x ho hy hx))
    · intro s hs heq
      apply (hm s hs).2.2
      rw [heq]
      exact isReset_self _ _ _ _
    · intro s hs hne
      apply (hm s hs).2.1
      simpa [isReset] using Ne.symm hne
  · next halloc hreset =>
    have hnot : ∀ i, isReset i c o = false := by
      intro i
      unfold isReset
      split
      · exact (hreset _ _ _ _ rfl rfl).elim
      · rfl
    refine ⟨_, rfl, rfl, hg.onArenas hl hsup hstep rfl rfl, ?_,
      ⟨rfl, rfl, rfl, rfl⟩, .other rfl rfl ?_ ?_⟩
    · intro s hs hcur
      exact ⟨(hm s hs).1 hcur, fun _ object hhas => hhas⟩
    · intro s hs
      exact (hm s hs).2.1 (hnot s.arena)
    intro v heq
    rw [heq] at hstep
    obtain ⟨i, worker, bytes, alignment, reply, hc⟩ := allocation_of_view hstep
    exact halloc i worker bytes alignment reply v hc heq

end

end

end Laghu.JsonDocuments
