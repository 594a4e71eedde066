import Laghu.JsonObjectKeys

/-!
The traversal accepts exactly the trees within the limits. The frames below the top of
the stack wait while a value is visited, so the visit of a value is a statement about
any stack below it: it either comes back to that stack or leaves with an error.
-/

namespace Laghu.JsonValidation

open Contract WhileLoops List Json

namespace Json

-- A scalar and the root have depth one.
mutual
def depth : Json → ℕ
  | .array items => 1 + itemDepth items
  | .object members => 1 + memberDepth members
  | _ => 1

def itemDepth : List Json → ℕ
  | [] => 0
  | item :: rest => max item.depth (itemDepth rest)

def memberDepth : List (ObjectKey × Json) → ℕ
  | [] => 0
  | (_, value) :: rest => max value.depth (memberDepth rest)
end

-- A predicate holds at the root and at every value below it.
mutual
def Every (P : Json → Prop) : Json → Prop
  | .array items => P (.array items) ∧ EveryItem P items
  | .object members => P (.object members) ∧ EveryMember P members
  | value => P value

def EveryItem (P : Json → Prop) : List Json → Prop
  | [] => True
  | item :: rest => item.Every P ∧ EveryItem P rest

def EveryMember (P : Json → Prop) : List (ObjectKey × Json) → Prop
  | [] => True
  | (_, value) :: rest => value.Every P ∧ EveryMember P rest
end

/-- The values directly below a value, in order. -/
def children : Json → List Json
  | .array items => items
  | .object members => members.map Prod.snd
  | _ => []

variable {P : Json → Prop}

theorem childrenInduction (h : ∀ v, (∀ c ∈ v.children, P c) → P v) (v : Json) : P v :=
  @rec P (fun items => ∀ c ∈ items, P c) (fun members => ∀ m ∈ members, P m.2)
    (fun m => P m.2) (h _ (by simp [children])) (fun _ => h _ (by simp [children]))
    (h _ (by simp [children])) (fun _ => h _ (by simp [children])) (fun _ ih => h _ ih)
    (fun _ ih => h _ (forall_mem_map.mpr ih)) (by simp)
    (fun _ _ hv hr => forall_mem_cons.mpr ⟨hv, hr⟩) (by simp)
    (fun _ _ hm hr => forall_mem_cons.mpr ⟨hm, hr⟩) (fun _ _ hv => hv) v

theorem itemDepth_le {n : ℕ} : ∀ items, itemDepth items ≤ n ↔ ∀ v ∈ items, v.depth ≤ n
  | [] => by simp [itemDepth]
  | _ :: rest => by rw [itemDepth, Nat.max_le, itemDepth_le rest, forall_mem_cons]

theorem memberDepth_eq : ∀ members, memberDepth members = itemDepth (members.map Prod.snd)
  | [] => rfl
  | (_, _) :: rest => by rw [memberDepth, memberDepth_eq rest]; rfl

theorem depth_eq (v : Json) : v.depth = 1 + itemDepth v.children := by
  cases v with
  | object members => rw [depth, memberDepth_eq]; rfl
  | _ => rfl

theorem everyItem_iff : ∀ items, EveryItem P items ↔ ∀ v ∈ items, v.Every P
  | [] => by simp [EveryItem]
  | _ :: rest => by rw [EveryItem, everyItem_iff rest, forall_mem_cons]

theorem everyMember_iff : ∀ members, EveryMember P members ↔ EveryItem P (members.map Prod.snd)
  | [] => Iff.rfl
  | (_, _) :: rest => by rw [EveryMember, everyMember_iff rest]; rfl

theorem every_iff (v : Json) : v.Every P ↔ P v ∧ ∀ c ∈ v.children, c.Every P := by
  rw [← everyItem_iff]
  cases v with
  | array items => rfl
  | object members => rw [Every, everyMember_iff]; rfl
  | _ => simp [Every, children, EveryItem]

end Json

/-- What a value has to satisfy by itself. -/
def Within (limits : JsonDocumentLimits) : Json → Prop
  | .string characters => characters.length ≤ limits.maximumStringBytes.toNat
  | .object members => ObjectWithin limits members
  | _ => True

/-- The documents a caller's limits admit. -/
structure Conforms (limits : JsonDocumentLimits) (root : Json) : Prop where
  count : root.valueCount ≤ limits.maximumAggregateValues.toNat
  depth : root.depth ≤ limits.maximumNesting.toNat
  values : root.Every (Within limits)

/-- A value that may stand on top of `height` frames. -/
def Fits (limits : JsonDocumentLimits) (height : ℕ) (v : Json) : Prop :=
  height + v.depth ≤ limits.maximumNesting.toNat ∧ v.Every (Within limits)

theorem fits_iff (limits : JsonDocumentLimits) (height : ℕ) (v : Json) :
    Fits limits height v ↔ height + 1 ≤ limits.maximumNesting.toNat ∧ Within limits v ∧
      ∀ c ∈ v.children, Fits limits (height + 1) c := by
  unfold Fits
  rw [depth_eq, every_iff, forall₂_and]
  have hdepth := itemDepth_le (n := limits.maximumNesting.toNat - (height + 1)) v.children
  constructor
  · rintro ⟨hle, hwithin, hevery⟩
    refine ⟨by omega, hwithin, ?_, hevery⟩
    intro c hc
    have := hdepth.mp (by omega) c hc
    omega
  rintro ⟨hle, hwithin, hchildren, hevery⟩
  have := hdepth.mpr fun c hc => by
    have := hchildren c hc
    omega
  exact ⟨by omega, hwithin, hevery⟩

/-- The frames in use, the top one last, in storage of the size the limits ask for. -/
structure Stacked (limits : JsonDocumentLimits) (t : Traversal) (stack : List TraversalFrame) :
    Prop where
  capacity : t.frames.length = limits.maximumNesting.toNat
  scratch : t.keyScratch.length = limits.maximumObjectMembers.toNat
  count : t.frameCount = stack.length
  room : stack.length ≤ limits.maximumNesting.toNat
  frames : t.frames.take stack.length = stack

section

variable {limits : JsonDocumentLimits} {t : Traversal} {below : List TraversalFrame}
  {frame : TraversalFrame}

section

variable (h : Stacked limits t (below ++ [frame]))
include h

theorem Stacked.height : t.frameCount = below.length + 1 ∧ below.length < t.frames.length := by
  have hn := h.count
  have hr := h.room
  rw [length_append, length_singleton] at hn hr
  exact ⟨hn, by rw [h.capacity]; omega⟩

theorem Stacked.below_eq : t.frames.take below.length = below := by
  have htake := congrArg (take below.length) h.frames
  rwa [take_take, length_append, Nat.min_eq_left (by omega), take_left] at htake

theorem Stacked.top : t.frames[t.frameCount - 1]? = some frame := by
  have hget := congrArg (fun frames => frames[below.length]?) h.frames
  simpa [h.height.1] using hget

theorem Stacked.pop :
    Stacked limits { t with frameCount := t.frameCount - 1 } below where
  capacity := h.capacity
  scratch := h.scratch
  count := by rw [h.height.1]; rfl
  room := by
    have hr := h.room
    rw [length_append] at hr
    omega
  frames := h.below_eq

theorem Stacked.update (frame' : TraversalFrame) :
    Stacked limits (update t frame') (below ++ [frame']) where
  capacity := by rw [JsonValidation.update, length_set, h.capacity]
  scratch := h.scratch
  count := by rw [length_append]; exact h.height.1
  room := by simpa using h.room
  frames := by
    obtain ⟨hn, hlt⟩ := h.height
    rw [length_append, length_singleton, JsonValidation.update, hn,
      Nat.add_sub_cancel, take_set_self hlt, h.below_eq]

end

theorem Stacked.push {stack : List TraversalFrame} (h : Stacked limits t stack)
    (hr : stack.length < limits.maximumNesting.toNat) (child : Json) (depth : ℕ) :
    ∃ t', push limits.maximumNesting t child depth = some (.running t') ∧
      Stacked limits t' (stack ++ [⟨child, depth + 1, .enter, [], []⟩]) := by
  have hlt : t.frameCount < t.frames.length := by
    rw [h.count, h.capacity]
    exact hr
  refine ⟨_, (if_neg (by rw [h.count]; omega)).trans (if_pos hlt), ?_, h.scratch, ?_, ?_, ?_⟩
  · rw [length_set, h.capacity]
  · rw [length_append, h.count]
    rfl
  · rw [length_append]
    exact hr
  · rw [length_append, length_singleton, ← h.count, take_set_self hlt, h.count, h.frames]

variable {sort : List ObjectKey → List ObjectKey}

theorem iterate_top (h : Stacked limits t (below ++ [frame]))
    (hdepth : frame.depth = below.length + 1) (frameCapacity keyCapacity : Size) :
    iterate sort frameCapacity keyCapacity limits t =
      if frame.state = .enter then enter sort keyCapacity limits t frame
      else descend frameCapacity t frame := by
  have hr := h.room
  rw [length_append, length_singleton] at hr
  rw [iterate, if_neg (by rw [h.height.1]; omega), h.top]
  exact if_neg (by omega)

/-- The children a frame has still to visit. -/
def TraversalFrame.pending (frame : TraversalFrame) : List Json :=
  match frame.state with
  | .enter => []
  | .array => frame.arrayIterator
  | .object => frame.objectIterator.map Prod.snd

theorem descend_nil (hst : frame.state ≠ .enter) (hpend : frame.pending = [])
    (frameCapacity : Size) : descend frameCapacity t frame = JsonValidation.pop t := by
  unfold TraversalFrame.pending at hpend
  unfold descend
  cases hs : frame.state with
  | enter => exact absurd hs hst
  | array =>
    simp only [hs] at hpend
    simp only [hpend]
  | object =>
    simp only [hs, map_eq_nil_iff] at hpend
    simp only [hpend]

theorem descend_cons {child : Json} {rest : List Json} (hst : frame.state ≠ .enter)
    (hpend : frame.pending = child :: rest) (frameCapacity : Size) :
    ∃ frame', frame'.state ≠ .enter ∧ frame'.pending = rest ∧ frame'.depth = frame.depth ∧
      descend frameCapacity t frame =
        JsonValidation.push frameCapacity (JsonValidation.update t frame') child frame.depth := by
  unfold TraversalFrame.pending at hpend
  unfold descend
  cases hs : frame.state with
  | enter => exact absurd hs hst
  | array =>
    simp only [hs] at hpend
    refine ⟨{ frame with arrayIterator := rest }, hst, ?_, rfl, by simp only [hs, hpend]⟩
    simp only [TraversalFrame.pending, hs]
  | object =>
    simp only [hs, map_eq_cons_iff] at hpend
    obtain ⟨⟨key, value⟩, members, hmems, rfl, rfl⟩ := hpend
    refine ⟨{ frame with objectIterator := members }, hst, ?_, rfl, by simp only [hs, hmems]⟩
    simp only [TraversalFrame.pending, hs]

/-- The loop over frames and key scratch of the sizes `parse` allocates. -/
abbrev loop (sort : List ObjectKey → List ObjectKey) (limits : JsonDocumentLimits) :
    Traversal → Iteration :=
  iterate sort limits.maximumNesting limits.maximumObjectMembers limits

/-- From a frame that enters `v`, the loop comes back to the frames below when `v`
fits there, and leaves with an error otherwise. -/
def Visits (sort : List ObjectKey → List ObjectKey) (limits : JsonDocumentLimits) (v : Json) :
    Prop :=
  ∀ (P : Result Unit → Prop) (below : List TraversalFrame) (t : Traversal),
    Stacked limits t (below ++ [⟨v, below.length + 1, .enter, [], []⟩]) →
    (Fits limits below.length v → ∀ t', Stacked limits t' below → Ends (loop sort limits) P t') →
    (¬ Fits limits below.length v → ∀ e, P (.error e)) → Ends (loop sort limits) P t

/-- The loop visits the children a frame has still to visit, then pops the frame. -/
theorem descend_ends {P : Result Unit → Prop} {below : List TraversalFrame} (rest : List Json) :
    ∀ {t : Traversal} {frame : TraversalFrame}, (∀ c ∈ rest, Visits sort limits c) →
      Stacked limits t (below ++ [frame]) → frame.depth = below.length + 1 →
      frame.state ≠ .enter → frame.pending = rest →
      ((∀ c ∈ rest, Fits limits (below.length + 1) c) →
        ∀ t', Stacked limits t' below → Ends (loop sort limits) P t') →
      ((¬ ∀ c ∈ rest, Fits limits (below.length + 1) c) → ∀ e, P (.error e)) →
      Ends (loop sort limits) P t := by
  induction rest with
  | nil =>
    intro t frame _ hstack hdepth hst hpend hcont _
    refine .next ?_ (hcont (by simp) _ hstack.pop)
    rw [loop, iterate_top hstack hdepth, if_neg hst, descend_nil hst hpend]
    rfl
  | cons child rest ih =>
    intro t frame hvisits hstack hdepth hst hpend hcont hfail
    obtain ⟨frame', hst', hpend', hdepth', hdescend⟩ :=
      descend_cons (t := t) hst hpend limits.maximumNesting
    have hiterate : loop sort limits t =
        push limits.maximumNesting (update t frame') child (below.length + 1) := by
      rw [loop, iterate_top hstack hdepth, if_neg hst, hdescend, hdepth]
    have hstack' := hstack.update frame'
    have hn : (update t frame').frameCount = below.length + 1 := hstack'.height.1
    rw [forall_mem_cons] at hvisits hcont hfail
    by_cases hf : below.length + 1 = limits.maximumNesting.toNat
    · refine .done (hiterate.trans (if_pos (hn.trans hf))) (hfail ?_ _)
      intro h
      have := ((fits_iff _ _ _).mp h.1).1
      omega
    have hroom := hstack'.room
    have hlen : (below ++ [frame']).length = below.length + 1 := length_append
    obtain ⟨t', hpush, hpushed⟩ := hstack'.push (by omega) child (below.length + 1)
    rw [← hlen] at hpushed hcont hfail
    refine .next (hiterate.trans hpush) (hvisits.1 P (below ++ [frame']) t' hpushed ?_ ?_)
    · intro hchild t' ht'
      rw [hlen] at hchild hcont hfail
      exact ih hvisits.2 ht' (hdepth'.trans hdepth) hst' hpend'
        (fun hr => hcont ⟨hchild, hr⟩) (fun hr => hfail fun h => hr h.2)
    · exact fun hchild => hfail fun h => hchild h.1

/-- Every value is visited: by induction on the tree, the children of a value are. -/
theorem visits (hsort : Sorts keyLess sort) (v : Json) : Visits sort limits v := by
  induction v using childrenInduction with
  | h v ih =>
    intro P below t hstack hcont hfail
    have hr := hstack.room
    rw [length_append, length_singleton] at hr
    have henter : loop sort limits t = enter sort limits.maximumObjectMembers limits t
        ⟨v, below.length + 1, .enter, [], []⟩ := by
      rw [loop, iterate_top hstack rfl, if_pos rfl]
    rw [fits_iff] at hcont hfail
    have hpop : enter sort limits.maximumObjectMembers limits t
        ⟨v, below.length + 1, .enter, [], []⟩ = pop t → Within limits v → v.children = [] →
        Ends (loop sort limits) P t := by
      intro heq hwithin hleaf
      refine .next (henter.trans heq) (hcont ⟨hr, hwithin, ?_⟩ _ hstack.pop)
      rw [hleaf]
      simp
    cases v with
    | null | boolean value | number => exact hpop rfl trivial rfl
    | string characters =>
      by_cases hlong : characters.length > limits.maximumStringBytes.toNat
      · refine .done (henter.trans (if_pos hlong)) (hfail ?_ _)
        exact fun h => absurd h.2.1 (not_le.mpr hlong)
      · exact hpop (if_neg hlong) (not_lt.mp hlong) rfl
    | array items =>
      refine .next henter (descend_ends items ih (hstack.update _) rfl (by simp) rfl ?_ ?_)
      · exact fun hitems => hcont ⟨hr, trivial, hitems⟩
      · exact fun hitems => hfail fun h => hitems h.2.2
    | object members =>
      obtain ⟨hv, hinv⟩ := validateObject_spec hsort hstack.scratch members
      by_cases hwithin : ObjectWithin limits members
      · obtain ⟨keys, hkeys, hlen⟩ := hv hwithin
        have hscr : Stacked limits { t with keyScratch := keys }
            (below ++ [⟨.object members, below.length + 1, .enter, [], []⟩]) :=
          ⟨hstack.capacity, hlen.trans hstack.scratch, hstack.count, hstack.room, hstack.frames⟩
        have hstack' := hscr.update ⟨.object members, below.length + 1, .object, [], members⟩
        refine .next (henter.trans (by simp only [enter, hkeys]))
          (descend_ends (members.map Prod.snd) ih hstack' rfl (by simp) rfl ?_ ?_)
        · exact fun hmems => hcont ⟨hr, hwithin, hmems⟩
        · exact fun hmems => hfail fun h => hmems h.2.2
      · obtain ⟨e, he⟩ := hinv hwithin
        refine .done (henter.trans (by simp only [enter, he]; rfl)) (hfail ?_ e)
        exact fun h => hwithin h.2.1

variable {frames : List TraversalFrame} {keyScratch : List ObjectKey}

theorem initial_stacked (hframes : frames.length = limits.maximumNesting.toNat)
    (hscr : keyScratch.length = limits.maximumObjectMembers.toNat)
    (hpos : 0 < limits.maximumNesting.toNat) (root : Json) :
    Stacked limits ⟨frames.set 0 ⟨root, 1, .enter, [], []⟩, 1, keyScratch⟩
      ([] ++ [⟨root, 1, .enter, [], []⟩]) where
  capacity := by rw [length_set, hframes]
  scratch := hscr
  count := rfl
  room := hpos
  frames := by
    have htake := take_set_self (hframes ▸ hpos) (TraversalFrame.mk root 1 .enter [] [])
    rwa [take_zero] at htake

theorem nesting_pos (h : validateLimits limits = .ok ()) : limits.maximumNesting ≠ 0#64 := by
  intro h0
  rw [validateLimits, if_pos (.inr (.inl h0))] at h
  exact nomatch h

variable {sort : List ObjectKey → List ObjectKey}

/-- The loop ends on every document, and says whether the limits admit it. -/
theorem traversal_ends {limits : JsonDocumentLimits} (hsort : Sorts keyLess sort)
    (hlim : validateLimits limits = .ok ()) {root : Json}
    (hn : ¬ root.valueCount > limits.maximumAggregateValues.toNat)
    (hframes : frames.length = limits.maximumNesting.toNat)
    (hscr : keyScratch.length = limits.maximumObjectMembers.toNat) :
    Ends (loop sort limits) (fun r => r = .ok () ↔ Conforms limits root)
      ⟨frames.set 0 ⟨root, 1, .enter, [], []⟩, 1, keyScratch⟩ := by
  have hpos : 0 < limits.maximumNesting.toNat := by
    have := mt (size_eq_zero _).mpr (nesting_pos hlim)
    omega
  refine visits hsort root (fun r => r = .ok () ↔ Conforms limits root) [] _
    (initial_stacked hframes hscr hpos root) ?_ ?_
  · intro hf t' ht'
    refine .done (if_pos ht'.count) ⟨fun _ => ?_, fun _ => rfl⟩
    exact ⟨not_lt.mp hn, by simpa using hf.1, hf.2⟩
  · intro hf e
    exact ⟨(fun h => nomatch h), fun h => absurd ⟨by simpa using h.depth, h.values⟩ hf⟩

/-- `validate_document` terminates, stays within the caller's storage, and accepts
exactly the documents the limits admit. -/
theorem validateDocument_iff_conforms (limits : JsonDocumentLimits) (hsort : Sorts keyLess sort)
    (hlimits : validateLimits limits = .ok ()) (root : Json) (frames : List TraversalFrame)
    (hframes : frames.length = limits.maximumNesting.toNat) (keyScratch : List ObjectKey)
    (hscratch : keyScratch.length = limits.maximumObjectMembers.toNat) :
    ∃ result, (result = .ok () ↔ Conforms limits root) ∧ (∃ n, ∀ fuel, n ≤ fuel →
        validateDocument sort root frames limits.maximumNesting keyScratch
          limits.maximumObjectMembers limits fuel = some (.finished result)) ∧
      ∀ fuel, validateDocument sort root frames limits.maximumNesting keyScratch
        limits.maximumObjectMembers limits fuel ≠ none := by
  have hpositive : 0 < limits.maximumNesting.toNat := by
    have := mt (size_eq_zero _).mpr (nesting_pos hlimits)
    omega
  unfold validateDocument
  by_cases hcount : root.valueCount > limits.maximumAggregateValues.toNat
  · simp only [if_pos hcount, leave]
    refine ⟨_, ?_, ⟨0, fun _ _ => rfl⟩, fun _ => Option.some_ne_none _⟩
    exact ⟨(fun h => nomatch h), fun h => absurd h.count (not_le.mpr hcount)⟩
  · simp only [if_neg hcount, if_neg (nesting_pos hlimits), if_pos (hframes ▸ hpositive)]
    exact (traversal_ends hsort hlimits hcount hframes hscratch).run

end

/-- One `std::sort`. -/
def sortKeys (keys : List ObjectKey) : List ObjectKey := keys.mergeSort fun a b => !keyLess b a

theorem sortKeys_sorts : Sorts keyLess sortKeys := by
  have hle : ∀ a b, (!keyLess b a) = true ↔ byteValues a ≤ byteValues b := by
    intro a b
    rw [Bool.not_eq_true', ← Bool.not_eq_true, keyLess_iff, not_lt]
  intro keys
  refine ⟨mergeSort_perm keys _, ?_⟩
  refine (pairwise_mergeSort ?_ ?_ keys).imp fun h => by simpa using h
  · intro a b c hab hbc
    exact (hle a c).mpr (le_trans ((hle a b).mp hab) ((hle b c).mp hbc))
  intro a b
  rw [Bool.or_eq_true, hle, hle]
  exact le_total _ _

/-- Two keys that differ only after a NUL byte are two members. -/
theorem validateDocument_iff_conforms_nul : ∃ result n, validateDocument sortKeys
      (.object [([97#8, 0#8, 98#8], .array [.null]), ([97#8, 0#8], .string [97#8])])
      (List.replicate 3 ⟨.null, 0, .enter, [], []⟩) 3#64 (List.replicate 2 []) 2#64
      ⟨1#64, 3#64, 3#64, 6#64, 2#64⟩ n = some (.finished result) ∧ result = .ok () := by
  obtain ⟨result, hresult, ⟨n, hn⟩, -⟩ := validateDocument_iff_conforms
    ⟨1#64, 3#64, 3#64, 6#64, 2#64⟩ sortKeys_sorts rfl
    (.object [([97#8, 0#8, 98#8], .array [.null]), ([97#8, 0#8], .string [97#8])])
    (replicate 3 ⟨.null, 0, .enter, [], []⟩) rfl (replicate 2 []) rfl
  refine ⟨result, n, hn n (Nat.le_refl n), hresult.mpr ⟨by decide, by decide, ?_⟩⟩
  refine ⟨⟨by decide, by decide, by decide⟩, ⟨trivial, trivial, trivial⟩, ?_, trivial⟩
  exact Nat.le_of_ble_eq_true rfl

end Laghu.JsonValidation
