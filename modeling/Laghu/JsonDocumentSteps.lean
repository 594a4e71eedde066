import Laghu.JsonDocumentInvariants

/-!
What each operation on arenas, documents and values does to the native documents.
-/

namespace Laghu.JsonDocuments

open Contract BoundedArenas ObjectMemory World
open Option List ObjectTable.Table
open ObjectTable (Table)

section

variable {w w' : World} {o : ℕ} {b : Birth} {l : Life}

theorem Framed.undisturbed (hframed : Framed w w') (hsound : Sound w)
    (hb : w.births[o]? = some b) : Undisturbed w w' o b := by
  obtain ⟨hs, hp, hsize₁, hsize₂⟩ := hsound.born o b hb
  refine ⟨fun hcur => (hframed _ hs hcur).1, ?_, ?_⟩
  · intro hcur
    exact (hframed _ hs hcur).2 hsize₁
  · intro hcur
    exact (hframed _ hp hcur).2 hsize₂

theorem Carried.owned (hc : Carried w w') (o : ℕ) : w'.Owned o ↔ w.Owned o := by
  unfold Owned
  rw [hc.documents_eq]

/-- The arenas moved on, and no native document is affected. -/
theorem Sound.framed (hsound : Sound w) (hg : Grounded w') (hc : Carried w w')
    (hspots : ∀ s ∈ w.spots, s ∈ w'.spots)
    (hlives : ∀ o b l, w.births[o]? = some b → life o w.history = some l → Follows w o b l →
      ∃ l', life o w'.history = some l' ∧ Follows w' o b l')
    (hunborn : ∀ o, life o w.history = some .unborn → life o w'.history = some .unborn) :
    Sound w' := by
  refine ⟨hg, ?_, ?_, ?_, ?_, ?_, ?_⟩
  · intro o b hb
    rw [hc.births_eq] at hb
    obtain ⟨hs, hp, hsizes⟩ := hsound.born o b hb
    exact ⟨hspots _ hs, hspots _ hp, hsizes⟩
  · intro k v hv
    rw [hc.views_eq] at hv
    obtain ⟨arena, harena, hspot⟩ := hsound.views k v hv
    exact ⟨arena, harena, hspots _ hspot⟩
  · rw [hc.births_eq, hc.documents_eq]
    exact hsound.filing
  · rw [hc.births_eq, hc.values_eq]
    exact hsound.values
  · intro o b hb
    rw [hc.births_eq] at hb
    obtain ⟨l, hl, hf⟩ := hsound.lives o b hb
    exact hlives o b l hb hl hf
  · intro o ho
    rw [hc.births_eq] at ho
    exact hunborn o (hsound.unborn o ho)

theorem Sound.quiet (hs : Sound w) (hg : Grounded w') (hframed : Framed w w') (hc : Carried w w')
    (hspots : ∀ s ∈ w.spots, s ∈ w'.spots) (hhist : w'.history = w.history)
    (hk : ∀ s ∈ w.spots, s.Current w → s.Current w') : Sound w' := by
  apply hs.framed hg hc hspots
  · intro o b l hb hl hf
    refine ⟨l, by rw [hhist]; exact hl, ?_⟩
    apply hf.transfer (hframed.undisturbed hs hb) (hk _ (hs.born o b hb).1)
    · exact fun ho _ => (hc.owned o).mpr ho
    · exact (hc.owned o).mp
  · intro o hl
    rw [hhist]
    exact hl

variable {arena k i source : ℕ}

/-- A reset ends the documents of its arena. -/
theorem Sound.reset (hsound : Sound w) (hg : Grounded w') (hframed : Framed w w')
    (hc : Carried w w') (hspots : w'.spots = w.spots)
    (hhist : w'.history = w.history ++ [.reset arena])
    (hgone : ∀ s ∈ w.spots, s.arena = arena → ¬ s.Current w')
    (hk : ∀ s ∈ w.spots, s.arena ≠ arena → s.Current w → s.Current w') : Sound w' := by
  have ha : ∀ o, life o w'.history = (life o w.history).bind fun l => l.after o (.reset arena) := by
    intro o
    rw [hhist, life_append]
  apply hsound.framed hg hc (fun s hs => by rw [hspots]; exact hs)
  · intro o b l hb hl hf
    have hspot := (hsound.born o b hb).1
    have hundisturbed := hframed.undisturbed hsound hb
    rw [ha, hl]
    cases l with
    | unborn => exact hf.elim
    | live other =>
      obtain ⟨ho, hliving⟩ := hf
      by_cases heq : arena = other
      · refine ⟨.stale, by rw [bind_some, Life.after, if_pos heq], ?_⟩
        exact hgone _ hspot (by rw [heq, ho]; rfl)
      refine ⟨.live other, by rw [bind_some, Life.after, if_neg heq], ?_⟩
      have hlive : Follows w o b (.live other) := ⟨ho, hliving⟩
      apply hlive.transfer hundisturbed
      · apply hk _ hspot
        intro hsame
        exact heq (hsame.symm.trans ho.symm)
      · exact fun howned _ => (hc.owned o).mpr howned
      · exact (hc.owned o).mp
    | stale => exact ⟨.stale, rfl, fun hcur => hf (hundisturbed.back hcur)⟩
    | gone =>
      refine ⟨.gone, rfl, ⟨fun howned => hf.unowned ((hc.owned o).mp howned), ?_⟩⟩
      intro hcur
      obtain ⟨state, hst, hact⟩ := hf.state (hundisturbed.back hcur)
      exact ⟨state, hundisturbed.state hcur _ hst, hact⟩
  · intro o hl
    rw [ha, hl]
    rfl

/-- The next view of the program. -/
theorem Sound.viewed (hs : Sound w) {v : ArenaView} (harena : v.arena = some arena)
    (hspot : ⟨arena, v.generation, v.bytes, .view w.views.length⟩ ∈ w.spots) :
    Sound { w with views := w.views ++ [v] } := by
  refine ⟨⟨hs.sound, hs.blocks, hs.sits, hs.apart⟩, hs.born, ?_, hs.filing,
    hs.values, ?_, hs.unborn⟩
  · intro k u hu
    rcases Nat.lt_trichotomy k w.views.length with hlt | rfl | hgt
    · rw [getElem?_append_left hlt] at hu
      exact hs.views k u hu
    · rw [getElem?_concat_length] at hu
      cases hu
      exact ⟨arena, harena, hspot⟩
    · rw [getElem?_eq_none (by rw [length_append, length_singleton]; omega)] at hu
      cases hu
  · intro o b hb
    obtain ⟨l, hl, hf⟩ := hs.lives o b hb
    exact ⟨l, hl, hf.same rfl rfl (fun ho _ => ho) (fun ho => ho)⟩

theorem arena_spec (hsound : Sound w) {call : BoundedArenas.Call} (hl : w.arenas.Legal call)
    (hsup : Supplies w call) :
    (∃ out w', w.arena call = some (out, w') ∧ Sound w') ∨
      (Saturates w.arenas call ∧ w.arena call = none) := by
  rcases step_effect hsound.sound hl with ⟨out, arenas', hstep, _⟩ | ⟨hsaturates, hn⟩
  · left
    obtain ⟨w₁, hrun, _, hg, hframed, hcarried, hconsequence⟩ :=
      onArena_spec (.view w.views.length) hsound.toGrounded hl hsup hstep
    unfold arena
    rw [hrun]
    dsimp only [bind_eq_bind, bind_some]
    cases hconsequence with
    | reset hhist hspots hgone hk =>
      exact ⟨_, w₁, rfl, hsound.reset hg hframed hcarried hspots hhist hgone hk⟩
    | allocated hc hhist hspots harena hsize hcur hk =>
      refine ⟨_, _, rfl, ?_⟩
      have hsound₁ : Sound w₁ := by
        apply hsound.quiet hg hframed hcarried _ hhist hk
        intro s hs
        rw [hspots]
        exact mem_append_left _ hs
      apply hsound₁.viewed harena
      rw [hspots, hcarried.views_eq]
      exact mem_append_right _ (mem_singleton_self _)
    | other hhist hspots hk hsilent =>
      have hsound₁ : Sound w₁ :=
        hsound.quiet hg hframed hcarried (fun s hs => by rw [hspots]; exact hs) hhist hk
      split
      · exact (hsilent _ rfl).elim
      · exact ⟨_, w₁, rfl, hsound₁⟩
  · right
    refine ⟨hsaturates, ?_⟩
    unfold arena onArena
    rw [hn]
    rfl

/-- The memory changed in a range that no native document has. -/
theorem Sound.remembered (hs : Sound w) {memory : Memory Object}
    (hundisturbed : ∀ o b, w.births[o]? = some b → Undisturbed w { w with memory := memory } o b) :
    Sound { w with memory := memory } := by
  refine ⟨⟨hs.sound, hs.blocks, hs.sits, hs.apart⟩, hs.born, hs.views,
    hs.filing, hs.values, ?_, hs.unborn⟩
  intro o b hb
  obtain ⟨l, hl, hf⟩ := hs.lives o b hb
  refine ⟨l, hl, hf.transfer (hundisturbed o b hb) ?_ ?_ ?_⟩
  · exact fun hcur => hcur
  · exact fun ho _ => ho
  · exact fun ho => ho

/-- The program writes to a view of its own. -/
theorem write_spec (hs : Sound w) (hk : k < w.views.length) :
    ∃ out w', w.write k = some (out, w') ∧ Sound w' := by
  obtain ⟨v, hv⟩ : ∃ v, w.views[k]? = some v := ⟨w.views[k], getElem?_eq_getElem hk⟩
  obtain ⟨arena, harena, hspot⟩ := hs.views k v hv
  obtain ⟨x, hx, _⟩ := hs.sits _ hspot
  have hbytes : w.arenas.viewBytes v = some (x.viewFor v.bytes v.generation) := by
    unfold BoundedArenas.World.viewBytes
    rw [harena]
    dsimp only
    rw [hx]
    rfl
  unfold write
  rw [hv]
  dsimp only [bind_eq_bind, bind_some]
  rw [hbytes]
  unfold BoundedArena.viewFor
  by_cases hgen : v.generation = x.generation
  · rw [if_neg (not_not.mpr hgen)]
    refine ⟨_, _, rfl, hs.remembered ?_⟩
    intro o b hb
    by_cases he : v.bytes.size = 0#64
    · rw [he]
      exact ⟨fun h => h, fun _ _ h => h, fun _ _ h => h⟩
    refine hs.undisturbed hspot ⟨x, hx, hgen.symm⟩ he ?_ ?_ hb
      (fun h => by cases h) (fun h => by cases h)
    · rfl
    · intro address size object hholds hapart _
      exact hholds.claim hapart
  · rw [if_pos hgen]
    exact ⟨_, w, rfl, hs⟩

theorem loadState_of_has {s : Spot} {state : DocumentState} (h : s.Has w (.state state)) :
    w.loadState s.range.data = some state := by
  unfold loadState
  rw [h.load]

theorem loadDocument_of_has {s : Spot} {root : Native} (h : s.Has w (.document root o)) :
    w.loadDocument s.range.data = some (root, o) := by
  unfold loadDocument
  rw [h.load]

theorem isCurrent_eq (hs : Sound w) (hb : w.births[o]? = some b) :
    ∃ x, w.arenas.arenas.get? b.arena = some x ∧
      ((b.stateSpot o).Current w ↔ x.generation = b.generation) := by
  obtain ⟨x, hx, _⟩ := hs.sits _ (hs.born o b hb).1
  exact ⟨x, hx, fun hcur => hcur.unique hx, fun hgen => ⟨x, hx, hgen⟩⟩

theorem current_of_live (hf : Follows w o b l) (ho : w.Owned o) :
    (∃ arena, l = .live arena ∧ Living w o b) ∨ (l = .stale ∧ ¬ (b.stateSpot o).Current w) := by
  cases l with
  | unborn => exact hf.elim
  | live arena => exact .inl ⟨arena, rfl, hf.2⟩
  | stale => exact .inr ⟨rfl, hf⟩
  | gone => exact absurd ho hf.unowned

/-- The native document is freed and its cell says so. -/
def retired (w : World) (o : ℕ) (b : Birth) : World :=
  { w with
    memory := replace (discard w.memory b.pool.data) b.state.data (.state ⟨false, 2#64⟩)
    history := w.history ++ [.freed o] }

theorem release_live (hsound : Sound w) (hb : w.births[o]? = some b) (hl : Living w o b) :
    w.release (b.document o) = some (retired w o b) := by
  obtain ⟨x, hx, hcur⟩ := isCurrent_eq hsound hb
  have hgen := hcur.mp hl.current
  obtain ⟨hs, hp, hsize₁, hsize₂⟩ := hsound.born o b hb
  obtain ⟨_, hne⟩ := hsound.separate hs hp (fun h => by cases h) hl.current hl.current hsize₁ hsize₂
  have hst : (b.stateSpot o).Has { w with
      memory := discard w.memory b.pool.data
      history := w.history ++ [.freed o] } (.state ⟨true, 1#64⟩) :=
    hl.state.discard hne
  have hcell := loadState_of_has hst
  have hfree : w.freeDocument b.pool.data = some { w with
      memory := discard w.memory b.pool.data
      history := w.history ++ [.freed o] } := by
    unfold freeDocument
    rw [show w.loadDocument b.pool.data = some (b.root, o) from
      loadDocument_of_has hl.document]
    rfl
  unfold release isCurrent Birth.document
  dsimp only [bind_eq_bind]
  rw [hx]
  dsimp only [bind_some, pure]
  rw [decide_eq_true hgen, if_pos rfl, hfree]
  dsimp only [bind_some]
  rw [if_pos rfl, show b.state.data = (b.stateSpot o).range.data from rfl, hcell]
  rfl

theorem release_stale (hs : Sound w) (hb : w.births[o]? = some b)
    (hstale : ¬ (b.stateSpot o).Current w) : w.release (b.document o) = some w := by
  obtain ⟨x, hx, hcur⟩ := isCurrent_eq hs hb
  have hgen : ¬ x.generation = b.generation := fun h => hstale (hcur.mpr h)
  unfold release isCurrent Birth.document
  dsimp only [bind_eq_bind]
  rw [hx]
  dsimp only [bind_some, pure]
  rw [decide_eq_false hgen]
  rfl

variable {documents : Table JsonDocument}

/-- The native document that was freed has lost its owner, and the others have kept theirs. -/
theorem Sound.retired (hsound : Sound w) (hb : w.births[o]? = some b) (hliving : Living w o b)
    (hlive : life o w.history = some (.live arena)) (hfiling : Filing w.births documents)
    (hback : ∀ other, OwnedIn documents other → w.Owned other) (hlost : ¬ OwnedIn documents o)
    (hk : ∀ other, other ≠ o → w.Owned other → OwnedIn documents other) :
    Sound { JsonDocuments.retired w o b with documents := documents } := by
  obtain ⟨hs, hp, hsize₁, hsize₂⟩ := hsound.born o b hb
  have hcur := hliving.current
  refine ⟨⟨hsound.sound, hsound.blocks, hsound.sits, hsound.apart⟩, hsound.born, hsound.views,
    hfiling, hsound.values, ?_, ?_⟩
  · intro other b' hb'
    obtain ⟨l, hl, hf⟩ := hsound.lives other b' hb'
    by_cases hne : other = o
    · obtain rfl : b' = b := Option.some.inj (hb'.symm.trans (by rw [hne]; exact hb))
      rw [hne]
      refine ⟨.gone, ?_, hlost, ?_⟩
      · change life o (w.history ++ [.freed o]) = some .gone
        rw [life_append, hlive]
        exact congrArg some (if_pos rfl)
      intro _
      refine ⟨⟨false, 2#64⟩, ?_, rfl⟩
      obtain ⟨_, hdiffer⟩ := hsound.separate hs hp (fun h => by cases h) hcur hcur hsize₁ hsize₂
      exact (Holds.discard hliving.state hdiffer).replace _
    refine ⟨l, ?_, ?_⟩
    · change life other (w.history ++ [.freed o]) = some l
      rw [life_append, hl]
      exact l.after_freed_ne (Ne.symm hne)
    have hundisturbed : Undisturbed w { JsonDocuments.retired w o b with
        documents := documents } other b' := by
      refine ⟨fun h => h, ?_, ?_⟩
      · intro hnow object hhas
        obtain ⟨hs', _, hsize', _⟩ := hsound.born other b' hb'
        obtain ⟨_, hpool⟩ := hsound.separate hs' hp (fun h => by cases h) hnow hcur hsize' hsize₂
        obtain ⟨_, hst⟩ := hsound.separate hs' hs (fun h => hne (Owner.state.inj h)) hnow
          hcur hsize' hsize₁
        exact (Holds.discard hhas hpool).replace_ne hst _
      intro hnow object hhas
      obtain ⟨_, hp', _, hsize'⟩ := hsound.born other b' hb'
      obtain ⟨_, hpool⟩ := hsound.separate hp' hp (fun h => hne (Owner.pool.inj h)) hnow
        hcur hsize' hsize₂
      obtain ⟨_, hst⟩ := hsound.separate hp' hs (fun h => by cases h) hnow hcur hsize' hsize₁
      exact (Holds.discard hhas hpool).replace_ne hst _
    exact hf.transfer hundisturbed (fun h => h) (fun howned _ => hk other hne howned) (hback other)
  · intro other ho
    change life other (w.history ++ [.freed o]) = some .unborn
    have hne : o ≠ other := by
      obtain ⟨hlt, _⟩ := List.getElem?_eq_some_iff.mp hb
      change w.births.length ≤ other at ho
      omega
    rw [life_append, hsound.unborn other ho]
    exact Life.unborn.after_freed_ne hne

variable {d : JsonDocument}

/-- A document that is given up is freed, unless its arena was reset. -/
def GivesUp (w w' : World) (d : JsonDocument) : Prop :=
  d.nativeDocument ≠ none → ∃ l, life d.origin w.history = some l ∧
    ((∃ arena, l = .live arena ∧ w'.history = w.history ++ [.freed d.origin]) ∨
      (l = .stale ∧ w'.history = w.history))

/-- What a document gives up when it is assigned to or destroyed. -/
theorem release_spec (hs : Sound w) (hget : w.documents.get? i = some d) :
    ∃ w', w.release d = some w' ∧ w'.documents = w.documents ∧ w'.values = w.values ∧
      GivesUp w w' d ∧
      ∀ documents, Filing w.births documents → (∀ o, OwnedIn documents o → w.Owned o) →
        (∀ o, w.Owned o → (d.nativeDocument ≠ none → o ≠ d.origin) → OwnedIn documents o) →
        (d.nativeDocument ≠ none → ¬ OwnedIn documents d.origin) →
        Sound { w' with documents := documents } := by
  by_cases hd : d.nativeDocument = none
  · have he : d = {} := by
      rcases hs.filing.shape i d hget with he | ⟨b, _, hshape⟩
      · exact he
      · rw [hshape] at hd
        cases hd
    refine ⟨w, by rw [he]; rfl, rfl, rfl, fun h => absurd hd h, ?_⟩
    intro documents hfiling hback hk _
    exact hs.refile hfiling hback fun o _ _ ho => hk o ho fun h => absurd hd h
  obtain ⟨b, l, hb, hshape, hl, hf, ho⟩ := hs.owner hget hd
  rcases current_of_live hf ho with ⟨arena, rfl, hliving⟩ | ⟨rfl, hstale⟩
  · refine ⟨JsonDocuments.retired w d.origin b, ?_, rfl, rfl,
      fun _ => ⟨_, hl, .inl ⟨arena, rfl, rfl⟩⟩, ?_⟩
    · rw [hshape]
      exact release_live hs hb hliving
    · intro documents hfiling hback hk hlost
      exact hs.retired hb hliving hl hfiling hback (hlost hd) fun o hne ho => hk o ho fun _ => hne
  refine ⟨w, ?_, rfl, rfl, fun _ => ⟨_, hl, .inr ⟨rfl, rfl⟩⟩, ?_⟩
  · rw [hshape]
    exact release_stale hs hb hstale
  intro documents hfiling hback hk _
  apply hs.refile hfiling hback
  intro o arena hlive ho
  apply hk o ho
  intro _ heq
  rw [heq, hl] at hlive
  cases hlive

theorem moveConstruct_spec (hs : Sound w) (hget : w.documents.get? source = some d) :
    ∃ out w', w.moveConstruct source = some (out, w') ∧ Sound w' ∧ w'.history = w.history ∧
      w'.values = w.values ∧ ∀ o, w'.Owned o ↔ w.Owned o := by
  have hsize := size_set w.documents source {}
  have hm : ∀ j d', ((w.documents.set source {}).push d).get? j = some d' → d' = {} ∨
      w.documents.get? (Equiv.swap source w.documents.size j) = some d' := by
    intro j d' hd'
    rcases get?_push_cases hd' with ⟨rfl, rfl⟩ | hold
    · right
      rw [hsize, Equiv.swap_apply_right]
      exact hget
    rcases get?_set_cases hold with ⟨_, rfl⟩ | ⟨hne, hold⟩
    · exact .inl rfl
    have hj := lt_size_of_get? hold
    right
    rw [Equiv.swap_apply_of_ne_of_ne hne (Nat.ne_of_lt hj)]
    exact hold
  obtain ⟨hfiling, hback⟩ :=
    hs.filing.relabel (Equiv.swap source w.documents.size).injective hm
  have hforth : ∀ o, w.Owned o → OwnedIn ((w.documents.set source {}).push d) o := by
    rintro o ⟨i, d', hi, hd', horig⟩
    by_cases heq : i = source
    · rw [heq, hget] at hi
      cases hi
      exact ⟨w.documents.size, d, by rw [← hsize]; exact get?_push_size _ _, hd', horig⟩
    refine ⟨i, d', get?_push_of_some _ ?_, hd', horig⟩
    rw [get?_set_ne _ _ heq]
    exact hi
  unfold moveConstruct
  rw [hget]
  exact ⟨_, _, rfl, hs.refile hfiling hback (fun o _ _ => hforth o), rfl, rfl,
    fun o => ⟨hback o, hforth o⟩⟩

/-- The document that was at `i` is in the table no more. -/
theorem Filing.lost {births : List Birth} {documents' : Table JsonDocument}
    (h : Filing births documents) {f : ℕ → ℕ} (hget : documents.get? i = some d)
    (hd : d.nativeDocument ≠ none)
    (hm : ∀ j d', documents'.get? j = some d' → d' = {} ∨
      (documents.get? (f j) = some d' ∧ f j ≠ i)) :
    ¬ OwnedIn documents' d.origin := by
  rintro ⟨j, d', hj, hd', horig⟩
  rcases hm j d' hj with rfl | ⟨hold, hne⟩
  · exact hd' rfl
  · exact hne (h.unique (f j) i d' d hold hget hd' hd horig)

/-- How the documents change when the one at `i` has been released. -/
structure Replaced (documents documents' : Table JsonDocument) (i : ℕ) : Prop where
  moved : ∃ f : ℕ → ℕ, Function.Injective f ∧ ∀ j d', documents'.get? j = some d' →
    d' = {} ∨ (documents.get? (f j) = some d' ∧ f j ≠ i)
  kept : ∀ j d', j ≠ i → documents.get? j = some d' → d'.nativeDocument ≠ none →
    ∃ k, documents'.get? k = some d'

theorem Replaced.assign {target : ℕ} {t : JsonDocument} (hne : target ≠ source)
    (htgt : documents.get? target = some t) (hsrc : documents.get? source = some d) :
    Replaced documents ((documents.set target d).set source {}) target := by
  constructor
  · refine ⟨Equiv.swap target source, (Equiv.swap target source).injective, ?_⟩
    intro j d' hj
    rcases get?_set_cases hj with ⟨_, rfl⟩ | ⟨hj₁, hold⟩
    · exact .inl rfl
    rcases get?_set_cases hold with ⟨rfl, rfl⟩ | ⟨hj₂, hold⟩
    · right
      rw [Equiv.swap_apply_left]
      exact ⟨hsrc, Ne.symm hne⟩
    right
    rw [Equiv.swap_apply_of_ne_of_ne hj₂ hj₁]
    exact ⟨hold, hj₂⟩
  · intro j d' hj hold _
    by_cases heq : j = source
    · rw [heq, hsrc] at hold
      cases hold
      refine ⟨target, ?_⟩
      rw [get?_set_ne _ _ hne]
      exact get?_set_self _ htgt
    · refine ⟨j, ?_⟩
      rw [get?_set_ne _ _ heq, get?_set_ne _ _ hj]
      exact hold

theorem Replaced.erase (documents : Table JsonDocument) (i : ℕ) :
    Replaced documents (documents.erase i) i := by
  constructor
  · refine ⟨id, Function.injective_id, ?_⟩
    intro j d' hj
    obtain ⟨hne, hold⟩ := get?_erase_cases hj
    exact .inr ⟨hold, hne⟩
  · intro j d' hne hold _
    exact ⟨j, by rw [get?_erase_ne _ hne]; exact hold⟩

/-- A document is released and the others find their places. -/
theorem replace_spec (hs : Sound w) (hget : w.documents.get? i = some d)
    (hreplaced : Replaced w.documents documents i) :
    ∃ w', w.release d = some w' ∧ w'.documents = w.documents ∧ w'.values = w.values ∧
      Sound { w' with documents := documents } ∧ GivesUp w w' d ∧
      ∀ o, w.Owned o → (d.nativeDocument ≠ none → o ≠ d.origin) → OwnedIn documents o := by
  obtain ⟨w', hrun, hdocs, hvals, hhist, hs'⟩ := release_spec hs hget
  obtain ⟨f, hinjective, hm⟩ := hreplaced.moved
  obtain ⟨hfiling, hback⟩ := hs.filing.relabel hinjective fun j d' hj => by
    rcases hm j d' hj with he | ⟨hold, _⟩
    · exact .inl he
    · exact .inr hold
  have hkept : ∀ o, w.Owned o → (d.nativeDocument ≠ none → o ≠ d.origin) → OwnedIn documents o := by
    rintro o ⟨j, d', hj, hd', horig⟩ hne
    have hji : j ≠ i := by
      intro heq
      rw [heq, hget] at hj
      cases hj
      exact hne hd' horig.symm
    obtain ⟨k, hk⟩ := hreplaced.kept j d' hji hj hd'
    exact ⟨k, d', hk, hd', horig⟩
  refine ⟨w', hrun, hdocs, hvals, ?_, hhist, hkept⟩
  exact hs' documents hfiling hback hkept fun hd => hs.filing.lost hget hd hm

/-- A live document is read. -/
theorem Sound.touched (hs : Sound w) (hlive : life o w.history = some (.live arena)) :
    Sound { w with history := w.history ++ [.touched o] } := by
  have hsame : ∀ other l, life other w.history = some l →
      life other (w.history ++ [.touched o]) = some l := by
    intro other l hl
    rw [life_append, hl]
    by_cases hne : o = other
    · rw [← hne, hlive] at hl
      cases hl
      rfl
    · exact l.after_touched_ne hne
  refine ⟨⟨hs.sound, hs.blocks, hs.sits, hs.apart⟩, hs.born, hs.views, hs.filing, hs.values, ?_,
    fun other ho => hsame other _ (hs.unborn other ho)⟩
  intro other b hb
  obtain ⟨l, hl, hf⟩ := hs.lives other b hb
  exact ⟨l, hsame other l hl, hf.same rfl rfl (fun howned _ => howned) fun howned => howned⟩

theorem Sound.valued (hs : Sound w) (hb : w.births[o]? = some b) {path : List ℕ}
    {native : Native} (hpath : b.root.follow path = some native) :
    Sound { w with values := w.values ++ [b.value o path] } := by
  refine ⟨⟨hs.sound, hs.blocks, hs.sits, hs.apart⟩, hs.born, hs.views, hs.filing, ?_, ?_, hs.unborn⟩
  · intro v hv
    rcases mem_append.mp hv with hold | hnew
    · exact hs.values v hold
    · rw [mem_singleton.mp hnew]
      exact ⟨b, path, native, hb, rfl, hpath⟩
  · intro other b hb
    obtain ⟨l, hl, hf⟩ := hs.lives other b hb
    exact ⟨l, hl, hf.same rfl rfl (fun ho _ => ho) fun ho => ho⟩

theorem touch_eq (hl : Living w o b) {path : List ℕ} {native : Native}
    (hpath : b.root.follow path = some native) :
    w.touch ⟨b.pool.data, path⟩ =
      some (native, { w with history := w.history ++ [.touched o] }) := by
  unfold touch
  dsimp only [bind_eq_bind]
  rw [show w.loadDocument b.pool.data = some (b.root, o) from loadDocument_of_has hl.document,
    bind_some]
  rw [hpath]
  rfl

/-- The generation of the arena is compared before the cell is read. -/
theorem value_requireValid (hs : Sound w) (hb : w.births[o]? = some b)
    (hl : Follows w o b l) (path : List ℕ) :
    (∃ arena, l = .live arena ∧ Living w o b ∧ (b.value o path).requireValid w = some (.ok ())) ∨
    ((∀ arena, l ≠ .live arena) ∧ ∃ e, (b.value o path).requireValid w = some (.error e)) := by
  obtain ⟨x, hx, hcur⟩ := isCurrent_eq hs hb
  have hstale : ¬ (b.stateSpot o).Current w →
      ∃ e, (b.value o path).requireValid w = some (.error e) := by
    intro hnot
    refine ⟨coreError .invalidState "JSON value was invalidated by an arena reset", ?_⟩
    unfold JsonValue.requireValid Birth.value
    dsimp only [bind_eq_bind]
    rw [hx, bind_some, if_pos fun h => hnot (hcur.mpr h)]
    rfl
  have hread : ∀ state, (b.stateSpot o).Current w → (b.stateSpot o).Has w (.state state) →
      (b.value o path).requireValid w = if !state.active ∨ state.epoch ≠ 1#64 then
        some (.error (coreError .invalidState "JSON value is no longer valid"))
      else some (.ok ()) := by
    intro state hnow hhas
    unfold JsonValue.requireValid Birth.value
    dsimp only [bind_eq_bind]
    rw [hx, bind_some, if_neg (not_not.mpr (hcur.mp hnow)),
      show w.loadState b.state.data = some state from loadState_of_has hhas, bind_some]
    rfl
  cases l with
  | unborn => exact hl.elim
  | live arena =>
    left
    obtain ⟨_, hliving⟩ := hl
    refine ⟨arena, rfl, hliving, ?_⟩
    rw [hread _ hliving.current hliving.state]
    rfl
  | stale =>
    right
    exact ⟨(fun arena h => by cases h), hstale hl⟩
  | gone =>
    right
    refine ⟨(fun arena h => by cases h), ?_⟩
    by_cases hnow : (b.stateSpot o).Current w
    · obtain ⟨state, hhas, hact⟩ := hl.state hnow
      refine ⟨_, (hread state hnow hhas).trans (if_pos ?_)⟩
      left
      rw [hact]
      rfl
    · exact hstale hnow

theorem follow_append (root : Native) (path : List ℕ) (index : ℕ) :
    root.follow (path ++ [index]) = (root.follow path).bind fun v => v.child index := by
  induction path generalizing root with
  | nil =>
    change (root.child index).bind _ = root.child index
    cases root.child index <;> rfl
  | cons first rest ih =>
    change (root.child first).bind _ = ((root.child first).bind _).bind _
    rw [bind_assoc]
    cases root.child first with
    | none => rfl
    | some next => exact ih next

theorem readNative_child {value : Native} {limit : Size} {accessor : Accessor} {index : ℕ}
    (h : readNative value limit accessor = .ok (.child index)) :
    ∃ next, value.child index = some next := by
  cases accessor with
  | arrayAt i =>
    obtain ⟨_, _, h⟩ := bind_eq_ok.mp h
    cases value with
    | array items =>
      dsimp only [Native.arrGet] at h
      split at h
      · cases h
      next hsome =>
      cases h
      split at hsome
      · next hlt =>
        cases hsome
        exact ⟨items[i.toNat], getElem?_eq_getElem hlt⟩
      · cases hsome
    | _ => cases h
  | objectMember key =>
    obtain ⟨_, _, h⟩ := bind_eq_ok.mp h
    obtain ⟨_, _, h⟩ := bind_eq_ok.mp h
    cases value with
    | object members =>
      split at h
      · cases h
      next hsome =>
      cases h
      obtain ⟨hlt, _⟩ := findIdx?_eq_some_iff_getElem.mp hsome
      refine ⟨members[index].2, ?_⟩
      change members[index]?.map Prod.snd = _
      rw [getElem?_eq_getElem hlt]
      rfl
    | _ => cases h
  | kind =>
    obtain ⟨_, _, h⟩ := bind_eq_ok.mp h
    cases h
  | text =>
    obtain ⟨_, _, h⟩ := bind_eq_ok.mp h
    split at h <;> cases h
  | _ =>
    obtain ⟨_, _, h⟩ := bind_eq_ok.mp h
    cases h

/-- An accessor reads the native document of a value while it is live, and fails else. -/
theorem access_spec (hs : Sound w) {v : JsonValue} (hv : w.values[k]? = some v)
    (accessor : Accessor) :
    ∃ out w' l, w.access k accessor = some (out, w') ∧ Sound w' ∧
      life v.origin w.history = some l ∧ w'.documents = w.documents ∧
      ((∃ arena, l = .live arena ∧ w'.history = w.history ++ [.touched v.origin]) ∨
        ((∀ arena, l ≠ .live arena) ∧ w' = w ∧ ∃ e, out = .reading (.error e))) := by
  obtain ⟨b, path, native, hb, hshape, hpath⟩ := hs.values v (mem_of_getElem? hv)
  obtain ⟨l, hl, hf⟩ := hs.lives v.origin b hb
  unfold access
  rw [hv]
  dsimp only [bind_eq_bind, bind_some]
  rcases value_requireValid hs hb hf path with ⟨arena, rfl, hliving, hvalid⟩ | ⟨hnot, e, hinv⟩
  · rw [← hshape] at hvalid
    have hptr : v.nativeValue = some ⟨b.pool.data, path⟩ := by rw [hshape]; rfl
    have hs₁ := hs.touched hl
    rw [hvalid, bind_some]
    rw [hptr, bind_some, touch_eq hliving hpath, bind_some]
    dsimp only
    split
    · exact ⟨_, _, _, rfl, hs₁, hl, rfl, .inl ⟨arena, rfl, rfl⟩⟩
    · next index hread =>
      obtain ⟨next, hn⟩ := readNative_child hread
      refine ⟨_, _, _, rfl, ?_, hl, rfl, .inl ⟨arena, rfl, rfl⟩⟩
      have hchild : b.root.follow (path ++ [index]) = some next := by
        rw [follow_append, hpath]
        exact hn
      have hs₂ := hs₁.valued hb hchild
      have hvalue : b.value v.origin (path ++ [index]) =
          { v with nativeValue := some ⟨b.pool.data, path ++ [index]⟩ } := by
        conv_rhs => rw [hshape]
        rfl
      rw [hvalue] at hs₂
      exact hs₂
    · exact ⟨_, _, _, rfl, hs₁, hl, rfl, .inl ⟨arena, rfl, rfl⟩⟩
  · rw [← hshape] at hinv
    rw [hinv]
    exact ⟨_, w, l, rfl, hs, hl, rfl, .inr ⟨hnot, rfl, e, rfl⟩⟩

theorem root_spec (hs : Sound w) (hget : w.documents.get? i = some d) :
    ∃ out w', w.root i = some (out, w') ∧ Sound w' ∧
      ((w'.history = w.history ++ [.touched d.origin]) ∨ w' = w) := by
  unfold root
  rw [hget]
  dsimp only [bind_eq_bind, bind_some]
  by_cases hd : d.nativeDocument = none
  · have hinv : d.requireValid w =
        some (.error (coreError .invalidState "JSON document is no longer valid")) := by
      unfold JsonDocument.requireValid
      rw [hd]
    rw [hinv]
    exact ⟨_, w, rfl, hs, .inr rfl⟩
  obtain ⟨b, l, hb, hshape, hl, hf, ho⟩ := hs.owner hget hd
  obtain ⟨x, hx, hcur⟩ := isCurrent_eq hs hb
  rcases current_of_live hf ho with ⟨arena, rfl, hliving⟩ | ⟨rfl, hstale⟩
  · have hcell : w.loadState b.state.data = some ⟨true, 1#64⟩ := loadState_of_has hliving.state
    have hv : (b.document d.origin).requireValid w = some (.ok ()) := by
      unfold JsonDocument.requireValid Birth.document
      dsimp only [bind_eq_bind]
      rw [hx, bind_some, if_neg (not_not.mpr (hcur.mp hliving.current)), hcell]
      rfl
    have hnative : d.nativeDocument = some b.pool.data := by rw [hshape]; rfl
    have hst : d.documentState = some b.state.data := by rw [hshape]; rfl
    have hroot : b.root.follow [] = some b.root := rfl
    have hs₁ := (hs.touched hl).valued hb hroot
    have hvalue : b.value d.origin [] = ⟨d.arena, some b.state.data, some ⟨b.pool.data, []⟩, 1#64,
        d.arenaGeneration, d.maximumLookupKeyBytes, d.origin⟩ := by
      rw [hshape]
      rfl
    rw [hvalue] at hs₁
    rw [← hshape] at hv
    rw [hv, bind_some]
    rw [hnative, hst, bind_some, bind_some, hcell, bind_some, touch_eq hliving hroot]
    exact ⟨_, _, rfl, hs₁, .inl rfl⟩
  · have hinv : (b.document d.origin).requireValid w = some (.error (coreError .invalidState
        "JSON document was invalidated by an arena reset")) := by
      unfold JsonDocument.requireValid Birth.document
      dsimp only [bind_eq_bind]
      rw [hx, bind_some, if_pos fun h => hstale (hcur.mpr h)]
      rfl
    rw [← hshape] at hinv
    rw [hinv]
    exact ⟨_, w, rfl, hs, .inr rfl⟩

end

end Laghu.JsonDocuments
