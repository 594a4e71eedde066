import Laghu.FeatureRegistry
import Mathlib.Data.Finset.Card

/-!
What the resolution of a request finds. The effective list is a postorder of the dependencies
that were visited, so it is closed, free of cycles and ordered at every moment; a feature
that is being visited reaches the one that is visited now, so meeting one is a cycle. The
features that are not being visited bound the nesting.
-/

namespace Laghu.FeatureRegistry

open FallibleSteps Postorder List World

variable {r : Registry} {w t : World} {selection : Selection} {depth : ℕ}

namespace Registry

/-- What `validateRegistry` checks: declarations name known features, but not the feature
they declare. -/
def Valid (r : Registry) : Prop :=
  ∀ feature ∈ r.ids, ∀ name ∈ [Property.depends, Property.conflicts],
    ∀ value ∈ r.values name feature, value ∈ r.ids ∧ value ≠ feature

abbrev depends (r : Registry) : String → List String := r.values .depends

/-- The features that some of the roots need, the roots themselves among them. -/
def Closure (r : Registry) (roots : List String) (feature : String) : Prop :=
  ∃ root ∈ roots, Reaches r.depends root feature

theorem Valid.depends_known (h : r.Valid) {feature dependency : String} (hfeat : feature ∈ r.ids)
    (hdependency : dependency ∈ r.depends feature) : dependency ∈ r.ids :=
  (h feature hfeat .depends (mem_cons_self ..) dependency hdependency).1

theorem Valid.closure_known (h : r.Valid) {roots : List String} {feature : String}
    (hroots : ∀ root ∈ roots, root ∈ r.ids) (hclosure : r.Closure roots feature) :
    feature ∈ r.ids := by
  obtain ⟨root, hroot, hreach⟩ := hclosure
  induction hreach with
  | refl => exact hroots root hroot
  | tail _ hedge ih => exact h.depends_known ih hedge

end Registry

variable {id other feature : String}

theorem property_eq (hknown : id ∈ r.ids) (name : Property) :
    property r id name = pure (r.values name id) := by
  unfold property requireKnown check
  rw [if_pos hknown, pure_bind]

theorem validateRegistry_returns :
    Returns (validateRegistry r) w (either (fun _ _ => ¬ r.Valid) fun _ t => r.Valid ∧ t = w) := by
  refine Returns.forM_checks fun feature hfeat => Returns.forM_checks fun name _ => ?_
  rw [property_eq hfeat, pure_bind]
  refine Returns.forM_checks fun value _ => ?_
  refine Returns.bind Returns.test (fun _ _ hunknown h => hunknown h.1) ?_
  intro _ t ht
  rw [ht.2]
  refine Returns.test.imp ?_
  intro result u hu
  cases result with
  | error _ => exact fun h => hu h.2
  | ok _ => exact ⟨⟨ht.1, hu.1⟩, hu.2⟩

theorem checkRequested_returns (requested seen : List String) (hseen : seen.Nodup) :
    Returns (checkRequested r selection seen requested) w
      (either (fun _ _ => ¬ ((∀ id ∈ requested, id ∈ r.ids) ∧ (seen ++ requested).Nodup))
        fun _ t => ((∀ id ∈ requested, id ∈ r.ids) ∧ (seen ++ requested).Nodup) ∧ t = w) := by
  induction requested generalizing seen with
  | nil =>
    refine .pure ⟨⟨fun id hid => ?_, ?_⟩, rfl⟩
    · cases hid
    · rwa [append_nil]
  | cons feature rest ih =>
    have hsplit : seen ++ feature :: rest = (seen ++ [feature]) ++ rest := by simp
    apply Returns.check
    · intro hunknown h
      exact hunknown (h.1 feature (mem_cons_self ..))
    intro hknown
    apply Returns.check
    · intro hrepeated h
      exact (disjoint_of_nodup_append h.2) (Decidable.not_not.mp hrepeated) (mem_cons_self ..)
    intro hnew
    have hnodup : (seen ++ [feature]).Nodup := by
      rw [← concat_eq_append]
      exact hseen.concat hnew
    rw [hsplit]
    refine (ih (seen ++ [feature]) hnodup).imp ?_
    intro result t ht
    cases result with
    | error _ => exact fun h => ht ⟨fun id hid => h.1 id (mem_cons_of_mem _ hid), h.2⟩
    | ok _ => exact ⟨⟨forall_mem_cons.mpr ⟨hknown, ht.1.1⟩, ht.1.2⟩, ht.2⟩

/-- The marks of the known features and the effective list agree while features are visited. -/
structure Searching (r : Registry) (w : World) : Prop where
  listed : Listed r.depends w.effectiveWorking
  done_iff : ∀ feature ∈ r.ids, w.visit feature = .done ↔ feature ∈ w.effectiveWorking

/-- How many features are not being visited. -/
def idle (r : Registry) (w : World) : ℕ :=
  (r.ids.toFinset.filter fun feature => w.visit feature ≠ .visiting).card

def SameVisits (w t : World) : Prop :=
  ∀ feature, t.visit feature = .visiting ↔ w.visit feature = .visiting

theorem SameVisits.idle_eq (h : SameVisits w t) : idle r t = idle r w := by
  unfold idle
  congr 1
  apply Finset.filter_congr
  intro feature _
  exact not_congr (h feature)

/-- The mark of a feature as `setVisit` leaves it. -/
def World.mark (w : World) (feature : String) (state : Visit) : World :=
  { w with visit := fun other => if other = feature then state else w.visit other }

theorem World.mark_self (w : World) (feature : String) (state : Visit) :
    (w.mark feature state).visit feature = state := if_pos rfl

theorem World.mark_other (state : Visit) (h : other ≠ feature) :
    (w.mark feature state).visit other = w.visit other := if_neg h

theorem idle_mark (hknown : feature ∈ r.ids) (hidle : w.visit feature ≠ .visiting) :
    idle r (w.mark feature .visiting) < idle r w := by
  apply Finset.card_lt_card
  rw [Finset.ssubset_iff_of_subset]
  · refine ⟨feature, ?_, ?_⟩
    · exact Finset.mem_filter.mpr ⟨mem_toFinset.mpr hknown, hidle⟩
    · intro h
      exact (Finset.mem_filter.mp h).2 (w.mark_self feature .visiting)
  intro other ho
  obtain ⟨hid, hmark⟩ := Finset.mem_filter.mp ho
  refine Finset.mem_filter.mpr ⟨hid, ?_⟩
  by_cases heq : other = feature
  · rwa [heq]
  · rwa [mark_other _ heq] at hmark

theorem Searching.mark_visiting (h : Searching r w) (hfresh : w.visit feature ≠ .done) :
    Searching r (w.mark feature .visiting) := by
  refine ⟨h.listed, fun other hknown => ?_⟩
  by_cases heq : other = feature
  · rw [heq, mark_self]
    rw [heq] at hknown
    have hnew : feature ∉ w.effectiveWorking :=
      fun hmem => hfresh ((h.done_iff feature hknown).mpr hmem)
    exact ⟨(fun hdone => by cases hdone), fun hmem => (hnew hmem).elim⟩
  · rw [mark_other _ heq]
    exact h.done_iff other hknown

/-- The feature that was being visited comes last. -/
theorem Searching.append_done (h : Searching r w) (hknown : feature ∈ r.ids)
    (hvisiting : w.visit feature = .visiting)
    (hn : ∀ dependency ∈ r.depends feature, dependency ∈ w.effectiveWorking) :
    Searching r
      { w.mark feature .done with effectiveWorking := w.effectiveWorking ++ [feature] } := by
  have hnew : feature ∉ w.effectiveWorking := by
    intro hmem
    rw [(h.done_iff feature hknown).mpr hmem] at hvisiting
    cases hvisiting
  refine ⟨h.listed.snoc hnew hn, fun other ho => ?_⟩
  rw [mem_append, mem_singleton]
  by_cases heq : other = feature
  · rw [heq, mark_self]
    exact ⟨fun _ => .inr rfl, fun _ => rfl⟩
  · rw [mark_other _ heq, h.done_iff other ho]
    exact ⟨.inl, fun hor => hor.resolve_right heq⟩

/-- What visiting `feature` adds to the effective list, up to now. -/
structure Progress (r : Registry) (feature : String) (w t : World) : Prop where
  searching : Searching r t
  grows : ∃ added, t.effectiveWorking = w.effectiveWorking ++ added ∧
    ∀ other ∈ added, Reaches r.depends feature other

def HasCycle (r : Registry) (feature : String) : Prop :=
  ∃ other, Reaches r.depends feature other ∧ Precedes r.depends other other

theorem Progress.refl (h : Searching r w) : Progress r feature w w :=
  ⟨h, [], (append_nil _).symm, fun other ho => by cases ho⟩

theorem Progress.mem (h : Progress r feature w t) (hmem : other ∈ w.effectiveWorking) :
    other ∈ t.effectiveWorking := by
  obtain ⟨added, hadded, _⟩ := h.grows
  rw [hadded]
  exact mem_append_left _ hmem

theorem Progress.trans {dependency : String} {u : World} (h : Progress r feature w t)
    (hedge : dependency ∈ r.depends feature) (hn : Progress r dependency t u) :
    Progress r feature w u := by
  obtain ⟨first, hf, hreach⟩ := h.grows
  obtain ⟨second, hsec, hreach'⟩ := hn.grows
  refine ⟨hn.searching, first ++ second, ?_, ?_⟩
  · rw [hsec, hf, append_assoc]
  intro other ho
  rcases mem_append.mp ho with ho | ho
  · exact hreach other ho
  · exact .head hedge (hreach' other ho)

/-- The feature that was being visited is done, and no other mark changes. -/
theorem Progress.finish (h : Progress r feature (w.mark feature .visiting) t)
    (hknown : feature ∈ r.ids) (hsame : SameVisits (w.mark feature .visiting) t)
    (hidle : w.visit feature ≠ .visiting)
    (hall : ∀ dependency ∈ r.depends feature, dependency ∈ t.effectiveWorking) :
    Progress r feature w
        { t.mark feature .done with effectiveWorking := t.effectiveWorking ++ [feature] } ∧
      SameVisits w
        { t.mark feature .done with effectiveWorking := t.effectiveWorking ++ [feature] } := by
  have hvisiting : t.visit feature = .visiting :=
    (hsame feature).mpr (w.mark_self feature .visiting)
  refine ⟨⟨h.searching.append_done hknown hvisiting hall, ?_⟩, ?_⟩
  · obtain ⟨added, hadded, hreach⟩ := h.grows
    refine ⟨added ++ [feature], ?_, ?_⟩
    · rw [hadded, append_assoc]
      rfl
    intro other ho
    rcases mem_append.mp ho with ho | ho
    · exact hreach other ho
    · rw [mem_singleton.mp ho]
  intro other
  by_cases heq : other = feature
  · rw [heq, mark_self]
    exact ⟨(fun hdone => by cases hdone), fun hmark => (hidle hmark).elim⟩
  have ho := hsame other
  rw [mark_other _ heq] at ho
  rw [mark_other _ heq]
  exact ho

/-- What a visit does, if features that are being visited reach the one it visits. -/
def Visits (r : Registry) (depth : ℕ) : Prop :=
  ∀ {w : World} {feature : String}, Searching r w → feature ∈ r.ids →
    (∀ other ∈ r.ids, w.visit other = .visiting → Precedes r.depends other feature) →
    idle r w < depth →
    Returns (visit r depth feature) w
      (either (fun _ _ => HasCycle r feature)
        fun _ t => Progress r feature w t ∧ SameVisits w t ∧ feature ∈ t.effectiveWorking)

theorem dependencies_return (hv : r.Valid) (hvisits : Visits r depth) (h : Searching r w)
    (hknown : feature ∈ r.ids)
    (hpath : ∀ other ∈ r.ids, w.visit other = .visiting → Reaches r.depends other feature)
    (hdepth : idle r w < depth) :
    Returns ((r.values .depends feature).forM fun dependency => do
        let dependencyState ← getVisit dependency
        check (dependencyState ≠ .visiting)
          ("Laghu feature registry failed: feature=" ++ feature ++ " dependency=" ++ dependency ++
            " rule=dependency_cycle")
        visit r depth dependency) w
      (either (fun _ _ => HasCycle r feature) fun _ t => Progress r feature w t ∧ SameVisits w t ∧
        ∀ dependency ∈ r.depends feature, dependency ∈ t.effectiveWorking) := by
  apply Returns.forM (I := fun earlier t => Progress r feature w t ∧ SameVisits w t ∧
    ∀ dependency ∈ earlier, dependency ∈ t.effectiveWorking)
  · exact ⟨.refl h, fun _ => Iff.rfl, fun _ hmem => by cases hmem⟩
  intro earlier dependency later t hsplit ht
  obtain ⟨hprog, hsame, hearlier⟩ := ht
  have hedge : dependency ∈ r.depends feature := by
    change dependency ∈ r.values .depends feature
    rw [hsplit]
    exact mem_append_right _ (mem_cons_self ..)
  have hdependency := hv.depends_known hknown hedge
  have hmeets : ∀ other ∈ r.ids, t.visit other = .visiting → Precedes r.depends other dependency :=
    fun other hmem ho => .tail' (hpath other hmem ((hsame other).mp ho)) hedge
  apply Returns.perform_bind rfl
  apply Returns.check
  · intro hvisiting
    exact ⟨dependency, .single hedge,
      hmeets dependency hdependency (Decidable.not_not.mp hvisiting)⟩
  intro _
  have hbound : idle r t < depth := by
    rw [hsame.idle_eq]
    exact hdepth
  refine (hvisits hprog.searching hdependency hmeets hbound).imp ?_
  intro result u hu
  cases result with
  | error _ =>
    obtain ⟨other, hreach, hcycle⟩ := hu
    exact ⟨other, .head hedge hreach, hcycle⟩
  | ok _ =>
    obtain ⟨hn, hsame', hmem⟩ := hu
    refine ⟨hprog.trans hedge hn, fun other => (hsame' other).trans (hsame other), ?_⟩
    intro other ho
    rcases mem_append.mp ho with ho | ho
    · exact hn.mem (hearlier other ho)
    · rwa [mem_singleton.mp ho]

theorem visit_returns (hv : r.Valid) (depth : ℕ) : Visits r depth := by
  induction depth with
  | zero =>
    intro w feature _ _ _ hdepth
    omega
  | succ depth ih =>
    intro w feature h hknown hpath hdepth
    apply Returns.perform_bind rfl
    apply Returns.check
    · intro hvisiting
      exact ⟨feature, .refl, hpath feature hknown (Decidable.not_not.mp hvisiting)⟩
    intro hidle
    split
    · rename_i hdone
      exact .pure ⟨.refl h, fun _ => Iff.rfl, (h.done_iff feature hknown).mp hdone⟩
    rename_i hfresh
    have hless : idle r (w.mark feature .visiting) < idle r w := idle_mark hknown hidle
    have hreaches : ∀ other ∈ r.ids, (w.mark feature .visiting).visit other = .visiting →
        Reaches r.depends other feature := by
      intro other hmem ho
      by_cases heq : other = feature
      · rw [heq]
      · rw [mark_other _ heq] at ho
        exact (hpath other hmem ho).to_reflTransGen
    apply Returns.perform_bind (t := w.mark feature .visiting) rfl
    rw [property_eq hknown, pure_bind]
    refine Returns.bind (dependencies_return hv ih (h.mark_visiting hfresh) hknown hreaches
      (by omega)) (fun _ _ hcycle => hcycle) ?_
    intro _ t ht
    obtain ⟨hprog, hsame, hall⟩ := ht
    obtain ⟨hfin, hsame'⟩ := hprog.finish hknown hsame hidle hall
    apply Returns.perform_bind (t := t.mark feature .done) rfl
    exact Returns.perform rfl ⟨hfin, hsame', mem_append_right _ (mem_singleton_self _)⟩

/-- Visiting the roots lists what they need, or finds a cycle there. -/
theorem roots_return (hv : r.Valid) {roots : List String} (hroots : ∀ root ∈ roots, root ∈ r.ids)
    (he : w.effectiveWorking = []) (hfresh : ∀ feature ∈ r.ids, w.visit feature = .fresh)
    (hdepth : r.ids.length < depth) :
    Returns (roots.forM fun feature => visit r depth feature) w
      (either (fun _ _ => ∃ feature, r.Closure roots feature ∧ Precedes r.depends feature feature)
        fun _ t => Listed r.depends t.effectiveWorking ∧
          ∀ feature, feature ∈ t.effectiveWorking ↔ r.Closure roots feature) := by
  have hidle (t : World) : idle r t < depth :=
    calc idle r t ≤ r.ids.toFinset.card := Finset.card_filter_le _ _
      _ ≤ r.ids.length := toFinset_card_le _
      _ < depth := hdepth
  have hloop : Returns (roots.forM fun feature => visit r depth feature) w
      (either (fun _ _ => ∃ feature, r.Closure roots feature ∧ Precedes r.depends feature feature)
        fun _ t => Searching r t ∧ (∀ feature ∈ r.ids, t.visit feature ≠ .visiting) ∧
          (∀ root ∈ roots, root ∈ t.effectiveWorking) ∧
          ∀ feature ∈ t.effectiveWorking, r.Closure roots feature) := by
    apply Returns.forM (I := fun earlier t => Searching r t ∧
      (∀ feature ∈ r.ids, t.visit feature ≠ .visiting) ∧
      (∀ root ∈ earlier, root ∈ t.effectiveWorking) ∧
      ∀ feature ∈ t.effectiveWorking, r.Closure roots feature)
    · refine ⟨⟨?_, ?_⟩, ?_, ?_, ?_⟩
      · rw [he]
        exact .nil
      · intro feature hknown
        simp [he, hfresh feature hknown]
      · intro feature hknown
        simp [hfresh feature hknown]
      · intro root hroot
        cases hroot
      intro feature hmem
      rw [he] at hmem
      cases hmem
    intro earlier root later t hsplit ht
    obtain ⟨hsearching, hn, hearlier, hclosure⟩ := ht
    have hroot : root ∈ roots := by
      rw [hsplit]
      exact mem_append_right _ (mem_cons_self ..)
    refine (visit_returns hv depth hsearching (hroots root hroot)
      (fun other hmem ho => (hn other hmem ho).elim) (hidle t)).imp ?_
    intro result u hu
    cases result with
    | error _ =>
      obtain ⟨feature, hreach, hcycle⟩ := hu
      exact ⟨feature, ⟨root, hroot, hreach⟩, hcycle⟩
    | ok _ =>
      obtain ⟨hprog, hsame, hmem⟩ := hu
      refine ⟨hprog.searching, fun feature hmem h => hn feature hmem ((hsame feature).mp h), ?_, ?_⟩
      · intro other ho
        rcases mem_append.mp ho with ho | ho
        · exact hprog.mem (hearlier other ho)
        · rwa [mem_singleton.mp ho]
      intro feature hfeat
      obtain ⟨added, hadded, hreach⟩ := hprog.grows
      rw [hadded] at hfeat
      rcases mem_append.mp hfeat with hfeat | hfeat
      · exact hclosure feature hfeat
      · exact ⟨root, hroot, hreach feature hfeat⟩
  refine hloop.imp ?_
  intro result t ht
  cases result with
  | error _ => exact ht
  | ok _ =>
    obtain ⟨hsearching, _, hall, hclosure⟩ := ht
    refine ⟨hsearching.listed, fun feature => ⟨hclosure feature, ?_⟩⟩
    intro hneeded
    obtain ⟨root, hroot, hreach⟩ := hneeded
    exact hsearching.listed.reaches (hall root hroot) hreach

theorem foldl_keeps (values kept : List String) (hnodup : (kept ++ values).Nodup) :
    values.foldl (fun kept value => if value ∈ kept then kept else kept ++ [value]) kept =
      kept ++ values := by
  induction values generalizing kept with
  | nil => exact (append_nil kept).symm
  | cons value values ih =>
    have hnew : value ∉ kept := fun hmem =>
      disjoint_of_nodup_append hnodup hmem (mem_cons_self ..)
    have hsplit : kept ++ value :: values = (kept ++ [value]) ++ values := by simp
    rw [foldl_cons, if_neg hnew, hsplit]
    exact ih _ (by rwa [← hsplit])

theorem removeDuplicates_of_nodup {values : List String} (hnodup : values.Nodup) :
    removeDuplicates values = values :=
  foldl_keeps values [] hnodup

theorem checkEffective_returns {effective : List String} (hknown : ∀ id ∈ effective, id ∈ r.ids) :
    Returns (checkEffective r selection effective) w (either
        (fun _ _ => ¬ ∀ feature ∈ effective, feature ∈ selection.available ∧
          ∀ conflict ∈ r.values .conflicts feature, conflict ∉ effective)
        fun _ t => (∀ feature ∈ effective, feature ∈ selection.available ∧
          ∀ conflict ∈ r.values .conflicts feature, conflict ∉ effective) ∧ t = w) := by
  refine Returns.forM_checks fun feature hfeat => ?_
  refine Returns.bind Returns.test (fun _ _ hunavailable h => hunavailable h.1) ?_
  intro _ t ht
  rw [ht.2, property_eq (hknown feature hfeat), pure_bind]
  refine (Returns.forM_checks (P := fun conflict => conflict ∉ effective)
    fun conflict _ => Returns.test).imp ?_
  intro result u hu
  cases result with
  | error _ => exact fun h => hu h.2
  | ok _ => exact ⟨⟨ht.1, hu.1⟩, hu.2⟩

variable {requested : List String}

theorem mem_withCore : id ∈ withCore requested ↔ id = "core" ∨ id ∈ requested := by
  unfold withCore
  split
  · rename_i hcore
    exact ⟨.inr, fun h => h.elim (fun heq => heq ▸ hcore) fun hmem => hmem⟩
  · exact mem_cons

theorem nodup_withCore : (withCore requested).Nodup ↔ requested.Nodup := by
  unfold withCore
  split
  · exact Iff.rfl
  · rename_i hcore
    exact ⟨fun h => (nodup_cons.mp h).2, fun h => nodup_cons.mpr ⟨hcore, h⟩⟩

/-- When a request can be met. -/
structure Resolvable (r : Registry) (requested available : List String) : Prop where
  requested_known : ∀ id ∈ requested, id ∈ r.ids
  available_known : ∀ id ∈ available, id ∈ r.ids
  requested_once : requested.Nodup
  acyclic : ∀ feature, r.Closure ("core" :: requested) feature →
    ¬ Precedes r.depends feature feature
  all_available : ∀ feature, r.Closure ("core" :: requested) feature → feature ∈ available
  no_conflict : ∀ feature other, r.Closure ("core" :: requested) feature →
    r.Closure ("core" :: requested) other → other ∉ r.values .conflicts feature

/-- The closure, each feature once and after the features it depends on. -/
structure Resolves (r : Registry) (requested effective : List String) : Prop where
  mem_iff : ∀ feature, feature ∈ effective ↔ r.Closure ("core" :: requested) feature
  nodup : effective.Nodup
  ordered : ∀ earlier feature later, effective = earlier ++ feature :: later →
    ∀ dependency ∈ r.depends feature, dependency ∈ earlier

theorem closure_withCore :
    r.Closure (withCore requested) feature ↔ r.Closure ("core" :: requested) feature := by
  unfold Registry.Closure
  simp only [mem_withCore, mem_cons]

theorem resolveFeatures_returns (selection : Selection) (w : World) (hv : r.Valid)
    (hoff : isOff selection.unparsedArguments = true) (hdepth : r.ids.length < depth) :
    Returns (resolveFeatures r depth selection) w
      (either (fun _ _ => ¬ Resolvable r selection.ids selection.available)
        fun effective _ => Resolvable r selection.ids selection.available ∧
          Resolves r selection.ids effective) := by
  refine Returns.check (fun h => (h hoff).elim) fun _ => ?_
  refine Returns.bind validateRegistry_returns (fun _ _ h => (h hv).elim) ?_
  intro _ _ ht
  rw [ht.2]
  refine Returns.bind (checkRequested_returns _ [] nodup_nil) ?_ ?_
  · intro _ _ hfails h
    refine hfails ⟨fun id hid => ?_, nodup_withCore.mpr h.requested_once⟩
    exact (mem_withCore.mp hid).elim (fun heq => heq ▸ r.core_known) (h.requested_known id)
  intro _ _ hreq
  obtain ⟨⟨hroots, honce⟩, rfl⟩ := hreq
  refine Returns.bind (Returns.forM_checks (P := fun id => id ∈ r.ids) fun _ _ => Returns.test)
    (fun _ _ hfails h => hfails h.available_known) ?_
  intro _ _ havailable
  rw [havailable.2]
  apply Returns.perform_bind rfl
  refine Returns.bind (roots_return hv hroots rfl (fun feature h => if_pos h) hdepth) ?_ ?_
  · intro _ _ hcycle h
    obtain ⟨feature, hclosure, hcycle⟩ := hcycle
    exact h.acyclic feature (closure_withCore.mp hclosure) hcycle
  intro _ t hlisted
  obtain ⟨hlisted, hmem⟩ := hlisted
  have hmem' (feature : String) : feature ∈ t.effectiveWorking ↔
      r.Closure ("core" :: selection.ids) feature := (hmem feature).trans closure_withCore
  apply Returns.perform_bind rfl
  rw [removeDuplicates_of_nodup hlisted.nodup]
  have hknown : ∀ id ∈ t.effectiveWorking, id ∈ r.ids :=
    fun id hid => hv.closure_known hroots ((hmem id).mp hid)
  refine Returns.bind (checkEffective_returns hknown) ?_ ?_
  · intro _ _ hfails h
    refine hfails fun feature hfeat =>
      ⟨h.all_available feature ((hmem' feature).mp hfeat), ?_⟩
    intro conflict hconflict ho
    exact h.no_conflict feature conflict ((hmem' feature).mp hfeat) ((hmem' conflict).mp ho)
      hconflict
  intro _ _ hchecked
  refine .pure ⟨⟨?_, havailable.1, nodup_withCore.mp honce, ?_, ?_, ?_⟩, ⟨hmem', hlisted.nodup, ?_⟩⟩
  · intro id hid
    exact hroots id (mem_withCore.mpr (.inr hid))
  · intro feature hclosure
    exact hlisted.acyclic ((hmem' feature).mpr hclosure)
  · intro feature hclosure
    exact (hchecked.1 feature ((hmem' feature).mpr hclosure)).1
  · intro feature other hclosure ho hconflict
    exact (hchecked.1 feature ((hmem' feature).mpr hclosure)).2 other hconflict
      ((hmem' other).mpr ho)
  · intro earlier feature later hsplit dependency hdependency
    exact hlisted.before hsplit hdependency

theorem declared_valid : declared.Valid := by
  unfold Registry.Valid
  decide +kernel

/-- `laghu_resolve_features` over declarations that name known features, but not the feature
they declare, succeeds exactly when the request can be met, whatever marks an earlier
resolution has left; and then it lists the closure, each feature once and after the features
it depends on. -/
theorem resolveFeatures_iff_resolvable (hvalid : r.Valid) (requested available : List String)
    (diagnosticPrefix : String) (hdepth : r.ids.length < depth) (w : World) :
    ∃ result t, resolveFeatures r depth
          { diagnosticPrefix := diagnosticPrefix, requested := requested, available := available }
          w = some (result, t) ∧
        ((∃ effective, result = .ok effective) ↔
          Resolvable r (requested.filter fun id => id ≠ "") available) ∧
        ∀ effective, result = .ok effective →
          Resolves r (requested.filter fun id => id ≠ "") effective := by
  let selection : Selection :=
    { diagnosticPrefix := diagnosticPrefix, requested := requested, available := available }
  have hoff : isOff "" = true := by decide +kernel
  obtain ⟨result, t, hrun, hresult⟩ :=
    resolveFeatures_returns selection w hvalid hoff hdepth
  refine ⟨result, t, hrun, ?_⟩
  cases result with
  | error e =>
    refine ⟨⟨?_, fun h => (hresult h).elim⟩, ?_⟩
    · intro h
      obtain ⟨effective, h⟩ := h
      cases h
    · intro effective h
      cases h
  | ok effective =>
    refine ⟨⟨fun _ => hresult.1, fun _ => ⟨effective, rfl⟩⟩, ?_⟩
    intro other h
    cases h
    exact hresult.2

theorem resolveFeatures_iff_resolvable_http3 :
    declared.Valid ∧ Resolvable declared ["http3"] ["core", "tls", "http3"] ∧
      Resolves declared ["http3"] ["core", "tls", "http3"] := by
  obtain ⟨result, t, hrun, hiff, hresolves⟩ := resolveFeatures_iff_resolvable declared_valid
    ["http3"] ["core", "tls", "http3"] "" (show 14 < 15 by omega) {}
  have hanswer : (resolveFeatures declared 15
      { requested := ["http3"], available := ["core", "tls", "http3"] } {}).map Prod.fst =
      some (.ok ["core", "tls", "http3"]) := by decide +kernel
  rw [hrun] at hanswer
  have hresult : result = .ok ["core", "tls", "http3"] := Option.some.inj hanswer
  exact ⟨declared_valid, hiff.mp ⟨_, hresult⟩, hresolves _ hresult⟩

end Laghu.FeatureRegistry
