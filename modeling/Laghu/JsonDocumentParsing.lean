import Laghu.JsonDocumentSteps
import Laghu.JsonTraversal

/-!
Parsing a document. The cell and the pool are two ranges of the arena that nobody else has,
from before the native document is created until the document is returned.
-/

namespace Laghu.JsonDocuments

open Contract BoundedArenas FallibleSteps JsonValidation ObjectMemory Views Returns World
open Option List ObjectTable.Table
open ObjectTable (Table)

/-- Parsing has not reached the native document yet. -/
structure Ready (w t : World) (arena : ℕ) (reply : Result MutableByteView) : Prop where
  sound : Sound t
  carried : Carried w t
  history_eq : t.history = w.history
  present : ∃ x, t.arenas.arenas.get? arena = some x
  supplied : t.Supplied arena reply

/-- A range in use. -/
structure Taken (t : World) (s : Spot) : Prop where
  mem : s ∈ t.spots
  current : s.Current t
  size : s.range.size ≠ 0#64

/-- Ranges in use stay in use, with their objects. -/
def Held (t t' : World) : Prop :=
  ∀ s, Taken t s → Taken t' s ∧ ∀ object, s.Has t object → s.Has t' object

section

variable {w t t' : World} {arena o : ℕ} {b : Birth} {reply : Result MutableByteView}
  {worker : WorkerId} {bytes alignment : Size} {owner : Owner} {limits : JsonDocumentLimits}

theorem Carried.trans {u : World} (h : Carried w t) (h' : Carried t u) : Carried w u :=
  ⟨h'.documents_eq.trans h.documents_eq, h'.values_eq.trans h.values_eq,
    h'.views_eq.trans h.views_eq, h'.births_eq.trans h.births_eq⟩

/-- The source of the arena stays out of the other arenas' blocks. -/
theorem supplied_step (hsup : t.Supplied arena reply) {out : BoundedArenas.Output}
    (hstep : t.arenas.step (.tryAllocate arena worker bytes alignment reply) =
      some (out, t'.arenas)) : t'.Supplied arena reply := by
  intro block hblock other a hne ha
  rcases step_storage hstep ha with he | ⟨x, hx, hsame⟩ | ⟨_, _, _, hc⟩
  · rw [he]
    exact .inr (Nat.zero_le _)
  · rw [hsame]
    exact hsup block hblock other x hne hx
  · exact absurd (BoundedArenas.Call.tryAllocate.inj hc).1.symm hne

theorem storage_returns (hr : Ready w t arena reply) (owner : Owner) (worker : WorkerId)
    (bytes alignment : Size) :
    Returns (Step.storage owner arena worker bytes alignment reply) t fun r t' =>
      Ready w t' arena reply ∧ Held t t' ∧ ∀ out, r = .ok out → out.1.size = bytes ∧
        (bytes ≠ 0#64 → Taken t' ⟨arena, out.2, out.1, owner⟩) := by
  have hsound := hr.sound
  have hl : t.arenas.Legal (.tryAllocate arena worker bytes alignment reply) := hr.present
  obtain ⟨out, arenas', hstep, heff⟩ : ∃ out arenas',
      t.arenas.step (.tryAllocate arena worker bytes alignment reply) = some (out, arenas') ∧
        Effect t.arenas (.tryAllocate arena worker bytes alignment reply) out arenas' := by
    rcases step_effect hsound.sound hl with hrun | ⟨⟨p, limit, x, hc, _⟩, _⟩
    · exact hrun
    · cases hc
  obtain ⟨result, rfl⟩ : ∃ result, out = .view result := by
    obtain ⟨a, _, hrest⟩ := bind_eq_some_iff.mp hstep
    obtain ⟨⟨result, a', bs⟩, _, hrest⟩ := bind_eq_some_iff.mp hrest
    cases hrest
    exact ⟨result, rfl⟩
  obtain ⟨t₁, hrun, ha, hg, hframed, hcarried, hconsequence⟩ :=
    onArena_spec owner hsound.toGrounded hl (by
      intro arena' worker' bytes' alignment' reply' heq
      cases heq
      exact hr.supplied) hstep
  have hheld : (∀ s ∈ t.spots, s ∈ t₁.spots) → (∀ s ∈ t.spots, s.Current t → s.Current t₁) →
      Held t t₁ := by
    intro hspots hk s htaken
    have hcur := hk s htaken.mem htaken.current
    exact ⟨⟨hspots s htaken.mem, hcur, htaken.size⟩, (hframed s htaken.mem hcur).2 htaken.size⟩
  have hn : (∀ s ∈ t.spots, s ∈ t₁.spots) → t₁.history = t.history →
      (∀ s ∈ t.spots, s.Current t → s.Current t₁) → Ready w t₁ arena reply := by
    intro hspots hhist hk
    obtain ⟨x, hx⟩ := hr.present
    obtain ⟨x', hx', _⟩ := heff.arena_step hx
    exact ⟨hsound.quiet hg hframed hcarried hspots hhist hk,
      hr.carried.trans hcarried, hhist.trans hr.history_eq,
      ⟨x', by rw [ha]; exact hx'⟩,
      supplied_step hr.supplied (by rw [hstep, ha])⟩
  unfold Returns Step.storage storage
  rw [hrun]
  dsimp only [bind_eq_bind, bind_some]
  cases hconsequence with
  | @allocated i _ _ _ _ v hc hhist hspots harena hsize hcur hk =>
    obtain ⟨rfl, _, rfl, _⟩ := BoundedArenas.Call.tryAllocate.inj hc
    have hmem : ∀ s ∈ t.spots, s ∈ t₁.spots := by
      intro s hs
      rw [hspots]
      exact mem_append_left _ hs
    have hview : t₁.arenas.viewBytes v = some (.ok v.bytes) := by
      obtain ⟨x, hx, hgen⟩ := hcur
      unfold BoundedArenas.World.viewBytes
      rw [harena]
      dsimp only at hx ⊢
      rw [hx]
      exact congrArg some (if_neg (not_not.mpr hgen.symm))
    dsimp only
    rw [hview]
    refine ⟨_, t₁, rfl, hn hmem hhist hk, hheld hmem hk, ?_⟩
    intro out hout
    cases hout
    refine ⟨hsize, fun hnz => ⟨?_, hcur, by rw [hsize]; exact hnz⟩⟩
    rw [hspots]
    exact mem_append_right _ (mem_singleton_self _)
  | other hhist hspots hk hsilent =>
    have hmem : ∀ s ∈ t.spots, s ∈ t₁.spots := by
      intro s hs
      rw [hspots]
      exact hs
    cases result with
    | error e =>
      exact ⟨_, t₁, rfl, hn hmem hhist hk, hheld hmem hk, fun out hout => by cases hout⟩
    | ok v => exact (hsilent v rfl).elim

/-- The cell is written to its range. -/
theorem construct_ready (hr : Ready w t arena reply) {generation : BitVec 64}
    {state : MutableByteView}
    (htaken : Taken t ⟨arena, generation, state, .state w.births.length⟩) :
    Returns (Step.construct state) t fun r t' => r = .ok () ∧ Ready w t' arena reply ∧
      Taken t' ⟨arena, generation, state, .state w.births.length⟩ ∧
      Spot.Has ⟨arena, generation, state, .state w.births.length⟩ t' (.state {}) := by
  obtain ⟨hdocs, hvals, hviews, hbirths⟩ := hr.carried
  refine ⟨.ok (), _, rfl, rfl, ⟨?_, ⟨hdocs, hvals, hviews, hbirths⟩, hr.history_eq,
    hr.present, hr.supplied⟩, ⟨htaken.mem, htaken.current, htaken.size⟩,
    holds_place _ _ _ _⟩
  apply hr.sound.remembered
  intro o b hb
  have hlt : o < t.births.length := (List.getElem?_eq_some_iff.mp hb).1
  rw [hbirths] at hlt
  refine hr.sound.undisturbed htaken.mem htaken.current htaken.size ?_ ?_ hb ?_ ?_
  · rfl
  · intro address size object hholds hapart hne
    exact hholds.place hapart hne
  · intro heq
    have hnum := Owner.state.inj heq
    omega
  · intro heq
    cases heq

/-- One more native document. -/
theorem Sound.extended (hsound : Sound t) (ha : t'.arenas = t.arenas)
    (hspots : t'.spots = t.spots) (hvals : t'.values = t.values) (hviews : t'.views = t.views)
    (hbirths : t'.births = t.births ++ [b]) (hst : Taken t (b.stateSpot t.births.length))
    (hpool : Taken t (b.poolSpot t.births.length)) (hfiling : Filing t'.births t'.documents)
    (howned : ∀ o, o ≠ t.births.length → (t'.Owned o ↔ t.Owned o))
    (hundisturbed : ∀ o b', t.births[o]? = some b' → Undisturbed t t' o b')
    (hlife : ∀ o, o ≠ t.births.length → life o t'.history = life o t.history)
    (hnew : ∃ l, life t.births.length t'.history = some l ∧ Follows t' t.births.length b l) :
    Sound t' := by
  have hcur : ∀ s : Spot, s.Current t' ↔ s.Current t := by
    intro s
    unfold Spot.Current
    rw [ha]
  have hcases : ∀ {o b'}, t'.births[o]? = some b' →
      (o = t.births.length ∧ b' = b) ∨ (o < t.births.length ∧ t.births[o]? = some b') := by
    intro o b' hb'
    rw [hbirths] at hb'
    rcases Nat.lt_trichotomy o t.births.length with hlt | rfl | hgt
    · rw [getElem?_append_left hlt] at hb'
      exact .inr ⟨hlt, hb'⟩
    · rw [getElem?_concat_length] at hb'
      exact .inl ⟨rfl, (Option.some.inj hb').symm⟩
    · rw [getElem?_eq_none (by rw [length_append, length_singleton]; omega)] at hb'
      cases hb'
  refine ⟨⟨by rw [ha]; exact hsound.sound, by rw [ha]; exact hsound.blocks, ?_, ?_⟩,
    ?_, ?_, hfiling, ?_, ?_, ?_⟩
  · intro s hs
    rw [hspots] at hs
    unfold Spot.Sits
    rw [ha]
    exact hsound.sits s hs
  · intro s hs u hu hne hs' hu'
    rw [hspots] at hs hu
    exact hsound.apart s hs u hu hne ((hcur s).mp hs') ((hcur u).mp hu')
  · intro o b' hb'
    rw [hspots]
    rcases hcases hb' with ⟨rfl, rfl⟩ | ⟨_, hold⟩
    · exact ⟨hst.mem, hpool.mem, hst.size, hpool.size⟩
    · exact hsound.born o b' hold
  · rw [hviews, hspots]
    exact hsound.views
  · intro v hv
    rw [hvals] at hv
    obtain ⟨b', path, native, hb', hshape, hpath⟩ := hsound.values v hv
    refine ⟨b', path, native, ?_, hshape, hpath⟩
    rw [hbirths, getElem?_append_left (List.getElem?_eq_some_iff.mp hb').1]
    exact hb'
  · intro o b' hb'
    rcases hcases hb' with ⟨rfl, rfl⟩ | ⟨hlt, hold⟩
    · exact hnew
    obtain ⟨l, hl, hf⟩ := hsound.lives o b' hold
    have hne : o ≠ t.births.length := ne_of_lt hlt
    refine ⟨l, by rw [hlife o hne]; exact hl, ?_⟩
    exact hf.transfer (hundisturbed o b' hold) (hcur _).mpr
      (fun h _ => (howned o hne).mpr h) (howned o hne).mp
  · intro o ho
    rw [hbirths, length_append, length_singleton] at ho
    rw [hlife o (by omega)]
    exact hsound.unborn o (by omega)

/-- What is known when the native document is created. -/
structure Laid (t : World) (b : Birth) : Prop where
  state : Taken t (b.stateSpot t.births.length)
  pool : Taken t (b.poolSpot t.births.length)
  cell : (b.stateSpot t.births.length).Has t (.state {})

theorem Laid.separate (hlaid : Laid t b) (hs : Sound t) :
    ApartViews b.state b.pool ∧ b.state.data ≠ b.pool.data :=
  hs.separate hlaid.state.mem hlaid.pool.mem (fun h => by cases h) hlaid.state.current
    hlaid.pool.current hlaid.state.size hlaid.pool.size

/-- Earlier documents do not notice what happens in the two ranges. -/
theorem Laid.undisturbed (hlaid : Laid t b) (hsound : Sound t) (ha : t'.arenas = t.arenas)
    (hmemory : ∀ address size object, Holds t.memory address size object →
      Apart address size b.pool.data b.pool.size.toNat → address ≠ b.pool.data →
      address ≠ b.state.data → Holds t'.memory address size object) {b' : Birth}
    (hb' : t.births[o]? = some b') : Undisturbed t t' o b' := by
  have hlt : o < t.births.length := (List.getElem?_eq_some_iff.mp hb').1
  obtain ⟨hs, hp, hsize₁, hsize₂⟩ := hsound.born o b' hb'
  have hback : ∀ s : Spot, s.Current t' → s.Current t := by
    intro s hs
    unfold Spot.Current at hs ⊢
    rw [ha] at hs
    exact hs
  have hfresh : ∀ s ∈ t.spots, s.Current t → s.range.size ≠ 0#64 →
      (s.owner = .state o ∨ s.owner = .pool o) → ∀ object, s.Has t object → s.Has t' object := by
    intro s hs hcur hsize howner object hhas
    have hst : s.owner ≠ .state t.births.length := by
      rcases howner with heq | heq
      · rw [heq]
        intro h
        have hnum := Owner.state.inj h
        omega
      · rw [heq]
        intro h
        cases h
    have hpool : s.owner ≠ .pool t.births.length := by
      rcases howner with heq | heq
      · rw [heq]
        intro h
        cases h
      rw [heq]
      intro h
      have hnum := Owner.pool.inj h
      omega
    obtain ⟨hapart, hne⟩ := hsound.separate hs hlaid.pool.mem hpool hcur hlaid.pool.current
      hsize hlaid.pool.size
    obtain ⟨_, hne'⟩ := hsound.separate hs hlaid.state.mem hst hcur hlaid.state.current
      hsize hlaid.state.size
    exact hmemory _ _ _ hhas hapart hne hne'
  exact ⟨hback _, fun hcur => hfresh _ hs (hback _ hcur) hsize₁ (.inl rfl),
    fun hcur => hfresh _ hp (hback _ hcur) hsize₂ (.inr rfl)⟩

theorem filing_append {births : List Birth} {documents : Table JsonDocument}
    (h : Filing births documents) (b : Birth) : Filing (births ++ [b]) documents := by
  refine ⟨?_, h.unique⟩
  intro i d hget
  rcases h.shape i d hget with he | ⟨b', hb', hs⟩
  · exact .inl he
  refine .inr ⟨b', ?_, hs⟩
  rw [getElem?_append_left (List.getElem?_eq_some_iff.mp hb').1]
  exact hb'

theorem unowned_next (hs : Sound t) : ¬ t.Owned t.births.length := by
  rintro ⟨i, d, hget, hd, horig⟩
  obtain ⟨b, _, hb, _⟩ := hs.owner hget hd
  have hlt := (List.getElem?_eq_some_iff.mp hb).1
  omega

theorem filing_push (hs : Sound t) (b : Birth) :
    Filing (t.births ++ [b]) (t.documents.push (b.document t.births.length)) := by
  have hfiling := filing_append hs.filing b
  have ho : ∀ i d, t.documents.get? i = some d → d.nativeDocument ≠ none →
      d.origin ≠ t.births.length := by
    intro i d hget hd heq
    exact unowned_next hs ⟨i, d, hget, hd, heq⟩
  constructor
  · intro i d hget
    rcases get?_push_cases hget with ⟨_, rfl⟩ | hold
    · exact .inr ⟨b, getElem?_concat_length, rfl⟩
    · exact hfiling.shape i d hold
  intro i j d d' hi hj hd hd' horig
  rcases get?_push_cases hi with ⟨hi', rfl⟩ | hi'
  · rcases get?_push_cases hj with ⟨hj', _⟩ | hj'
    · exact hi'.trans hj'.symm
    · exact absurd horig.symm (ho j d' hj' hd')
  rcases get?_push_cases hj with ⟨_, rfl⟩ | hj'
  · exact absurd horig (ho i d hi' hd)
  · exact hfiling.unique i j d d' hi' hj' hd hd' horig

/-- The document does not keep to the limits, and is freed at once. -/
theorem stillborn (hs : Sound t) (hlaid : Laid t b) :
    ∃ t', (t.createDocument b).freeDocument b.pool.data = some t' ∧ Sound t' := by
  have hload : (t.createDocument b).loadDocument b.pool.data = some (b.root, t.births.length) := by
    unfold loadDocument createDocument
    rw [(holds_place _ _ _ _).load]
  unfold freeDocument
  rw [hload]
  refine ⟨_, rfl, ?_⟩
  refine hs.extended ?_ ?_ ?_ ?_ ?_ hlaid.state hlaid.pool (filing_append hs.filing b) ?_ ?_ ?_ ?_
  · rfl
  · rfl
  · rfl
  · rfl
  · rfl
  · exact fun o _ => Iff.rfl
  · intro o b' hb'
    refine hlaid.undisturbed hs ?_ ?_ hb'
    · rfl
    · intro address size object hholds hapart hne _
      exact (hholds.place hapart hne).discard hne
  · intro o hne
    change life o (t.history ++ [.created t.births.length b.arena] ++ [.freed t.births.length]) = _
    rw [life_append, life_append]
    cases life o t.history with
    | none => rfl
    | some l =>
      change ((l.after o (.created t.births.length b.arena)).bind _) = _
      rw [l.after_created_ne (Ne.symm hne)]
      exact l.after_freed_ne (Ne.symm hne)
  refine ⟨.gone, ?_, unowned_next hs, ?_⟩
  · change life _ (t.history ++ [.created t.births.length b.arena] ++ [.freed t.births.length]) = _
    rw [life_append, life_append, hs.unborn _ (le_refl _)]
    simp [Life.after]
  intro _
  refine ⟨{}, ?_, rfl⟩
  obtain ⟨hapart, hne⟩ := hlaid.separate hs
  exact (Holds.place hlaid.cell hapart hne).discard hne

/-- The document is returned to the program. -/
theorem brought (hs : Sound t) (hlaid : Laid t b) :
    ∃ out, Step.activate b.state (b.document t.births.length) (t.createDocument b) =
        some (.ok t.documents.size, out) ∧ Sound out := by
  obtain ⟨hapart, hne⟩ := hlaid.separate hs
  have hcell : (b.stateSpot t.births.length).Has (t.createDocument b) (.state {}) :=
    Holds.place hlaid.cell hapart hne
  have hload : (t.createDocument b).loadState b.state.data = some {} := loadState_of_has hcell
  have hact : Holds (replace (t.createDocument b).memory b.state.data (.state ⟨true, 1#64⟩))
      b.state.data b.state.size.toNat (.state ⟨true, 1#64⟩) := Holds.replace hcell _
  have hdoc : Holds (replace (t.createDocument b).memory b.state.data (.state ⟨true, 1#64⟩))
      b.pool.data b.pool.size.toNat (.document b.root t.births.length) :=
    (holds_place _ _ _ _).replace_ne (Ne.symm hne) _
  unfold Step.activate FallibleSteps.perform
  dsimp only [bind_eq_bind]
  rw [hload]
  refine ⟨_, rfl, ?_⟩
  have howner : OwnedIn (t.documents.push (b.document t.births.length)) t.births.length :=
    ⟨t.documents.size, _, get?_push_size _ _, some_ne_none _, rfl⟩
  refine hs.extended ?_ ?_ ?_ ?_ ?_ hlaid.state hlaid.pool (filing_push hs b) ?_ ?_ ?_ ?_
  · rfl
  · rfl
  · rfl
  · rfl
  · rfl
  · intro o hne
    constructor
    · rintro ⟨i, d, hget, hd, horig⟩
      rcases get?_push_cases hget with ⟨_, rfl⟩ | hold
      · exact absurd horig.symm hne
      · exact ⟨i, d, hold, hd, horig⟩
    · rintro ⟨i, d, hget, hd, horig⟩
      exact ⟨i, d, get?_push_of_some _ hget, hd, horig⟩
  · intro o b' hb'
    refine hlaid.undisturbed hs ?_ ?_ hb'
    · rfl
    · intro address size object hholds hapart hne hne'
      exact (hholds.place hapart hne).replace_ne hne' _
  · intro o hne
    change life o (t.history ++ [.created t.births.length b.arena]) = _
    rw [life_append]
    cases life o t.history with
    | none => rfl
    | some l => exact l.after_created_ne (Ne.symm hne)
  · refine ⟨.live b.arena, ?_, rfl, hlaid.state.current, howner, hact, hdoc⟩
    change life _ (t.history ++ [.created t.births.length b.arena]) = _
    rw [life_append, hs.unborn _ (le_refl _)]
    simp [Life.after]

theorem finish_returns (externals : Externals) (hs : Sound t) (hlaid : Laid t b)
    (limits : JsonDocumentLimits) {fuel : ℕ} {result : Result Unit}
    (hval : validate externals b.root limits fuel = some (.finished result)) :
    Returns (Step.finish externals b limits fuel) t fun _ t' => Sound t' := by
  apply bind (Q := fun r u => r = .ok t.births.length ∧ u = t)
  · exact .perform rfl ⟨rfl, rfl⟩
  · intro e u h
    cases h.1
  rintro origin u ⟨horig, rfl⟩
  cases horig
  apply bind (Q := fun r v => r = .ok () ∧ v = u.createDocument b)
  · exact .perform rfl ⟨rfl, rfl⟩
  · intro e v h
    cases h.1
  rintro ⟨⟩ v ⟨_, rfl⟩
  rw [hval]
  cases result with
  | error e =>
    obtain ⟨t', hfree, hs'⟩ := stillborn hs hlaid
    apply bind (Q := fun r v => r = .ok () ∧ v = t')
    · refine .perform (a := ()) ?_ ⟨rfl, rfl⟩
      rw [hfree]
      rfl
    · intro e v h
      cases h.1
    · rintro ⟨⟩ v ⟨_, rfl⟩
      exact .throw hs'
  | ok done =>
    obtain ⟨out, hrun, hs'⟩ := brought hs hlaid
    exact ⟨_, out, hrun, hs'⟩

theorem pool_nonempty {size : Size} (h : yyjsonPoolMinimumBytes ≤ size) : size ≠ 0#64 := by
  unfold yyjsonPoolMinimumBytes at h
  bv_omega

theorem parse_returns (externals : Externals) (hs : Sound w) (worker : WorkerId)
    (document : ByteView) {parser : ParserReply} {fuel : ℕ}
    (hpresent : ∃ a, w.arenas.arenas.get? arena = some a) (hsup : w.Supplied arena reply)
    (hfuel : validateLimits limits = .ok () → ∀ root, parser.document = .ok root →
      ∃ result, validate externals root limits fuel = some (.finished result)) :
    Returns (parse externals worker document arena limits reply parser fuel) w
      fun _ t => Sound t := by
  have hr : Ready w w arena reply := ⟨hs, ⟨rfl, rfl, rfl, rfl⟩, rfl, hpresent, hsup⟩
  obtain ⟨a, ha⟩ := hpresent
  apply bind (Q := fun r t => r = validateLimits limits ∧ t = w)
  · exact .outcome ⟨rfl, rfl⟩
  · rintro e t ⟨_, rfl⟩
    exact hs
  rintro ⟨⟩ t ⟨hlim, rfl⟩
  have hfuel := hfuel hlim.symm
  refine .check (fun _ => hs) fun hnonempty => ?_
  refine .check (fun _ => hs) fun _ => ?_
  apply bind (Q := fun _ u => u = t)
  · refine .perform (a := a) ?_ rfl
    rw [ha]
    rfl
  · rintro e u rfl
    exact hs
  rintro a₀ u rfl
  refine .check (fun _ => hs) fun _ => ?_
  apply bind (storage_returns hr .input worker document.size 1#64)
  · intro e t₁ h
    exact h.1.sound
  rintro input t₁ ⟨hr₁, _⟩
  apply bind (Q := fun r v => r = .ok t₁.births.length ∧ v = t₁)
  · exact .perform rfl ⟨rfl, rfl⟩
  · intro e v h
    cases h.1
  rintro origin v ⟨horig, rfl⟩
  have hnum : origin = u.births.length := by
    rw [← hr₁.carried.births_eq]
    exact Except.ok.inj horig
  rw [hnum]
  apply bind (storage_returns hr₁ (.state u.births.length) worker sizeofDocumentState
    alignofDocumentState)
  · intro e t₂ h
    exact h.1.sound
  rintro ⟨state, generation⟩ t₂ ⟨hr₂, _, hst⟩
  have hst₂ := (hst _ rfl).2 (by decide)
  apply bind (construct_ready hr₂ hst₂)
  · intro e t₃ h
    cases h.1
  rintro ⟨⟩ t₃ ⟨_, hr₃, hst₃, hcell₃⟩
  apply bind (storage_returns hr₃ .frames worker
    (limits.maximumNesting * sizeofTraversalFrame) alignofTraversalFrame)
  · intro e t₄ h
    exact h.1.sound
  rintro frames t₄ ⟨hr₄, hheld₄, _⟩
  obtain ⟨hst₄, hcell₄⟩ := hheld₄ _ hst₃
  apply bind (storage_returns hr₄ .keys worker
    (limits.maximumObjectMembers * sizeofObjectKey) alignofObjectKey)
  · intro e t₅ h
    exact h.1.sound
  rintro keys t₅ ⟨hr₅, hheld₅, _⟩
  obtain ⟨hst₅, hcell₅⟩ := hheld₅ _ hst₄
  obtain ⟨a₅, ha₅⟩ := hr₅.present
  apply bind (Q := fun _ v => v = t₅)
  · refine .perform (a := a₅) ?_ rfl
    rw [ha₅]
    rfl
  · rintro e v rfl
    exact hr₅.sound
  rintro a₁ v rfl
  refine .check (fun _ => hr₅.sound) fun hpool => ?_
  apply bind (storage_returns hr₅ (.pool u.births.length) worker
    (remainingCapacity a₁ - poolPadding a₁) alignofMaxAlign)
  · intro e t₆ h
    exact h.1.sound
  rintro ⟨pool, generation'⟩ t₆ ⟨hr₆, hheld₆, hpool₆⟩
  obtain ⟨hst₆, hcell₆⟩ := hheld₆ _ hst₅
  have hpool₆ := (hpool₆ _ rfl).2 (pool_nonempty hpool.2)
  refine .check (fun _ => hr₆.sound) fun _ => ?_
  split
  · exact .throw hr₆.sound
  next root hroot =>
  obtain ⟨result, hval⟩ := hfuel root hroot
  -- the cell and the pool were handed out in one generation
  have hgen : generation = generation' := by
    obtain ⟨x, hx, heq⟩ := hpool₆.current
    exact (hst₆.current.unique hx).symm.trans heq
  have hn : t₆.births.length = u.births.length := by rw [hr₆.carried.births_eq]
  rw [hgen, ← hn] at hst₆
  rw [← hn] at hpool₆
  have hlaid : Laid t₆ ⟨arena, generation', state, pool, root, limits.maximumStringBytes⟩ :=
    ⟨hst₆, hpool₆, hcell₆ _ (hcell₅ _ (hcell₄ _ hcell₃))⟩
  exact finish_returns externals hr₆.sound hlaid limits hval

/-- A traversal that has time enough ends. -/
theorem enough_fuel {externals : Externals} (hsort : Sorts keyLess externals.sort)
    (hlim : validateLimits limits = .ok ()) (root : Native) :
    ∃ n, ∀ fuel, n ≤ fuel →
      ∃ result, validate externals root limits fuel = some (.finished result) := by
  by_cases hcount : root.toJson.valueCount > limits.maximumAggregateValues.toNat
  · refine ⟨0, fun fuel _ => ⟨.error (coreError .invalidRange
      "JSON document exceeds the caller aggregate limit"), ?_⟩⟩
    rw [validate, validateDocument, if_pos hcount]
    rfl
  obtain ⟨result, _, ⟨n, hn⟩, _⟩ := (traversal_ends hsort hlim hcount
    length_replicate length_replicate).run
  refine ⟨n, fun fuel hfuel => ⟨result, ?_⟩⟩
  have hpos : 0 < limits.maximumNesting.toNat := by
    have := mt (size_eq_zero _).mpr (nesting_pos hlim)
    omega
  rw [validate, validateDocument, if_neg hcount, if_neg (nesting_pos hlim),
    if_pos (by rw [length_replicate]; exact hpos)]
  exact hn fuel hfuel

end

end Laghu.JsonDocuments
