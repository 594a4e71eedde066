import Laghu.JsonDocumentRanges

/-!
The life of a native document. It is created, and ends when it is freed or when its arena is
reset. While it is live one document owns it, its state cell is active in the epoch of its
values, and both the cell and the pool are where they were created.
-/

namespace Laghu.JsonDocuments

open Contract BoundedArenas ObjectMemory
open ObjectTable (Table)

inductive Life
  | unborn
  | live (arena : ℕ)
  | stale
  | gone
  deriving DecidableEq

/-- `none` is a document that was used or freed while it was not live. -/
def Life.after (origin : ℕ) : Life → Event → Option Life
  | .live arena, .reset other => some (if other = arena then .stale else .live arena)
  | l, .reset _ => some l
  | l, .created other arena =>
    if other ≠ origin then some l else if l = .unborn then some (.live arena) else none
  | .live arena, .freed other => some (if other = origin then .gone else .live arena)
  | l, .freed other => if other ≠ origin then some l else none
  | .live arena, .touched _ => some (.live arena)
  | l, .touched other => if other ≠ origin then some l else none

def life (origin : ℕ) (history : List Event) : Option Life :=
  history.foldlM (Life.after origin) .unborn

def Birth.document (b : Birth) (origin : ℕ) : JsonDocument :=
  ⟨some b.pool.data, some b.arena, some b.state.data, b.generation, b.maximumLookupKeyBytes, origin⟩

def Birth.value (b : Birth) (origin : ℕ) (path : List ℕ) : JsonValue :=
  ⟨some b.arena, some b.state.data, some ⟨b.pool.data, path⟩, 1#64, b.generation,
    b.maximumLookupKeyBytes, origin⟩

def Birth.stateSpot (b : Birth) (origin : ℕ) : Spot :=
  ⟨b.arena, b.generation, b.state, .state origin⟩

def Birth.poolSpot (b : Birth) (origin : ℕ) : Spot := ⟨b.arena, b.generation, b.pool, .pool origin⟩

def OwnedIn (documents : Table JsonDocument) (origin : ℕ) : Prop :=
  ∃ i d, documents.get? i = some d ∧ d.nativeDocument ≠ none ∧ d.origin = origin

/-- Some document owns the native document. -/
def World.Owned (w : World) (origin : ℕ) : Prop := OwnedIn w.documents origin

structure Living (w : World) (o : ℕ) (b : Birth) : Prop where
  current : (b.stateSpot o).Current w
  owned : w.Owned o
  state : (b.stateSpot o).Has w (.state ⟨true, 1#64⟩)
  document : (b.poolSpot o).Has w (.document b.root o)

structure Gone (w : World) (o : ℕ) (b : Birth) : Prop where
  unowned : ¬ w.Owned o
  state : (b.stateSpot o).Current w →
    ∃ state, (b.stateSpot o).Has w (.state state) ∧ state.active = false

def Follows (w : World) (o : ℕ) (b : Birth) : Life → Prop
  | .live arena => arena = b.arena ∧ Living w o b
  | .stale => ¬ (b.stateSpot o).Current w
  | .gone => Gone w o b
  | .unborn => False

/-- A document owns what one native document was created with, or nothing. -/
structure Filing (births : List Birth) (documents : Table JsonDocument) : Prop where
  shape : ∀ i d, documents.get? i = some d → d = {} ∨
    ∃ b, births[d.origin]? = some b ∧ d = b.document d.origin
  unique : ∀ i j d d', documents.get? i = some d → documents.get? j = some d' →
    d.nativeDocument ≠ none → d'.nativeDocument ≠ none → d.origin = d'.origin → i = j

structure Sound (w : World) : Prop extends Grounded w where
  born : ∀ o (b : Birth), w.births[o]? = some b → b.stateSpot o ∈ w.spots ∧ b.poolSpot o ∈ w.spots ∧
    b.state.size ≠ 0#64 ∧ b.pool.size ≠ 0#64
  views : ∀ k v, w.views[k]? = some v → ∃ arena, v.arena = some arena ∧
    ⟨arena, v.generation, v.bytes, .view k⟩ ∈ w.spots
  filing : Filing w.births w.documents
  values : ∀ v ∈ w.values, ∃ (b : Birth) (path : List ℕ) (native : Native),
    w.births[v.origin]? = some b ∧ v = b.value v.origin path ∧ b.root.follow path = some native
  lives : ∀ o (b : Birth), w.births[o]? = some b → ∃ l, life o w.history = some l ∧ Follows w o b l
  unborn : ∀ o, w.births.length ≤ o → life o w.history = some .unborn

theorem life_append (o : ℕ) (history : List Event) (e : Event) :
    life o (history ++ [e]) = (life o history).bind fun l => l.after o e := by
  unfold life
  rw [List.foldlM_append]
  simp

theorem Life.after_created_ne {o other arena : ℕ} (l : Life) (h : other ≠ o) :
    l.after o (.created other arena) = some l := by
  cases l <;> exact if_pos h

theorem Life.after_freed_ne {o other : ℕ} (l : Life) (h : other ≠ o) :
    l.after o (.freed other) = some l := by
  cases l <;> simp [Life.after, h]

theorem Life.after_touched_ne {o other : ℕ} (l : Life) (h : other ≠ o) :
    l.after o (.touched other) = some l := by
  cases l <;> simp [Life.after, h]

section

variable {w w' : World} {o : ℕ} {b : Birth} {l : Life}

/-- What one native document rests on is as it was, while its arena is not reset. -/
structure Undisturbed (w w' : World) (o : ℕ) (b : Birth) : Prop where
  back : (b.stateSpot o).Current w' → (b.stateSpot o).Current w
  state : (b.stateSpot o).Current w' → ∀ object, (b.stateSpot o).Has w object →
    (b.stateSpot o).Has w' object
  pool : (b.stateSpot o).Current w' → ∀ object, (b.poolSpot o).Has w object →
    (b.poolSpot o).Has w' object

theorem Follows.transfer (hf : Follows w o b l) (hundisturbed : Undisturbed w w' o b)
    (hk : (b.stateSpot o).Current w → (b.stateSpot o).Current w')
    (ho : w.Owned o → l ≠ .stale → w'.Owned o) (hback : w'.Owned o → w.Owned o) :
    Follows w' o b l := by
  cases l with
  | unborn => exact hf
  | live arena =>
    obtain ⟨harena, hcur, howner, hst, hdoc⟩ := hf
    have hcur' := hk hcur
    exact ⟨harena, hcur', ho howner (by simp), hundisturbed.state hcur' _ hst,
      hundisturbed.pool hcur' _ hdoc⟩
  | stale => exact fun hcur => hf (hundisturbed.back hcur)
  | gone =>
    refine ⟨fun howner => hf.unowned (hback howner), ?_⟩
    intro hcur
    obtain ⟨state, hst, hact⟩ := hf.state (hundisturbed.back hcur)
    exact ⟨state, hundisturbed.state hcur _ hst, hact⟩

/-- The arenas and the memory are as they were. -/
theorem Follows.same (hf : Follows w o b l) (ha : w'.arenas = w.arenas)
    (hmemory : w'.memory = w.memory) (ho : w.Owned o → l ≠ .stale → w'.Owned o)
    (hback : w'.Owned o → w.Owned o) : Follows w' o b l := by
  have hcur : ∀ s : Spot, s.Current w' ↔ s.Current w := by
    intro s
    unfold Spot.Current
    rw [ha]
  have hhas : ∀ (s : Spot) object, s.Has w object → s.Has w' object := by
    intro s object h
    unfold Spot.Has
    rw [hmemory]
    exact h
  exact hf.transfer ⟨(hcur _).mp, fun _ => hhas _, fun _ => hhas _⟩ (hcur _).mpr ho hback

/-- Only the documents change, and none that is live loses its owner. -/
theorem Sound.refile (hs : Sound w) {documents : Table JsonDocument}
    (hfiling : Filing w.births documents) (hback : ∀ o, OwnedIn documents o → w.Owned o)
    (ho : ∀ o arena, life o w.history = some (.live arena) → w.Owned o → OwnedIn documents o) :
    Sound { w with documents := documents } := by
  refine ⟨⟨hs.sound, hs.blocks, hs.sits, hs.apart⟩, hs.born, hs.views,
    hfiling, hs.values, ?_, hs.unborn⟩
  intro o b hb
  obtain ⟨l, hl, hf⟩ := hs.lives o b hb
  refine ⟨l, hl, hf.same rfl rfl ?_ (hback o)⟩
  intro howner hnot
  cases l with
  | unborn => exact hf.elim
  | live arena => exact ho o arena hl howner
  | stale => exact absurd rfl hnot
  | gone => exact absurd howner hf.unowned

theorem Filing.relabel {births : List Birth} {documents documents' : Table JsonDocument}
    (h : Filing births documents) {f : ℕ → ℕ} (hinjective : Function.Injective f)
    (hm : ∀ j d, documents'.get? j = some d → d = {} ∨ documents.get? (f j) = some d) :
    Filing births documents' ∧ ∀ o, OwnedIn documents' o → OwnedIn documents o := by
  refine ⟨⟨?_, ?_⟩, ?_⟩
  · intro i d hget
    rcases hm i d hget with he | hold
    · exact .inl he
    · exact h.shape (f i) d hold
  · intro i j d d' hi hj hd hd' horig
    rcases hm i d hi with rfl | hold
    · exact absurd rfl hd
    rcases hm j d' hj with rfl | hold'
    · exact absurd rfl hd'
    · exact hinjective (h.unique (f i) (f j) d d' hold hold' hd hd' horig)
  · rintro o ⟨i, d, hget, hd, horig⟩
    rcases hm i d hget with rfl | hold
    · exact absurd rfl hd
    · exact ⟨f i, d, hold, hd, horig⟩

/-- A document that owns something has its owner's facts. -/
theorem Sound.owner (hs : Sound w) {i : ℕ} {d : JsonDocument}
    (hget : w.documents.get? i = some d) (hd : d.nativeDocument ≠ none) :
    ∃ b l, w.births[d.origin]? = some b ∧ d = b.document d.origin ∧
      life d.origin w.history = some l ∧ Follows w d.origin b l ∧ w.Owned d.origin := by
  rcases hs.filing.shape i d hget with rfl | ⟨b, hb, hshape⟩
  · exact absurd rfl hd
  · obtain ⟨l, hl, hf⟩ := hs.lives d.origin b hb
    exact ⟨b, l, hb, hshape, hl, hf, i, d, hget, hd, rfl⟩

/-- The objects of two owners are apart. -/
theorem Grounded.separate (hg : Grounded w) {s t : Spot} (hs : s ∈ w.spots)
    (ht : t ∈ w.spots) (howner : s.owner ≠ t.owner) (hcur : s.Current w)
    (hcur' : t.Current w) (hsize : s.range.size ≠ 0#64) (hsize' : t.range.size ≠ 0#64) :
    ApartViews s.range t.range ∧ s.range.data ≠ t.range.data := by
  have hapart := hg.apart s hs t ht howner hcur hcur' hsize hsize'
  refine ⟨hapart, ?_⟩
  intro heq
  have hpos : s.range.size.toNat ≠ 0 := fun h0 => hsize ((size_eq_zero _).mpr h0)
  have hpos' : t.range.size.toNat ≠ 0 := fun h0 => hsize' ((size_eq_zero _).mpr h0)
  unfold ApartViews Apart at hapart
  omega

/-- A change of memory in one range leaves the documents of other owners alone. -/
theorem Sound.undisturbed (hsound : Sound w) {t : Spot} (ht : t ∈ w.spots)
    (hcur : t.Current w) (hsize : t.range.size ≠ 0#64) (ha : w'.arenas = w.arenas)
    (hmemory : ∀ address size object, Holds w.memory address size object →
      Apart address size t.range.data t.range.size.toNat → address ≠ t.range.data →
      Holds w'.memory address size object)
    (hb : w.births[o]? = some b) (hst : t.owner ≠ .state o) (hpool : t.owner ≠ .pool o) :
    Undisturbed w w' o b := by
  obtain ⟨hs, hp, hsize₁, hsize₂⟩ := hsound.born o b hb
  have hback : ∀ s : Spot, s.Current w' → s.Current w := by
    intro s hs
    unfold Spot.Current at hs ⊢
    rw [ha] at hs
    exact hs
  refine ⟨hback _, ?_, ?_⟩
  · intro hcur' object hhas
    obtain ⟨hapart, hne⟩ := hsound.separate hs ht (Ne.symm hst) (hback _ hcur') hcur hsize₁ hsize
    exact hmemory _ _ _ hhas hapart hne
  intro hcur' object hhas
  obtain ⟨hapart, hne⟩ := hsound.separate hp ht (Ne.symm hpool) (hback _ hcur') hcur hsize₂ hsize
  exact hmemory _ _ _ hhas hapart hne

end

end Laghu.JsonDocuments
