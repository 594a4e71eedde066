import Laghu.DnsResolverLedgers

/-!
All resolvers of a program over whole runs, with calls from inside the completion
sink. A call of the sink is the last thing a call does, so that whatever is called from
inside it finds every resolver between two calls.
-/

namespace Laghu.DnsResolvers

open Contract ObjectTable Option ObjectTable.Table List

/-- Every handle owns a state of its own. -/
structure Owned (w : World) : Prop where
  live : ∀ h id, w.handles.get? h = some (some id) → ∃ s, w.states.get? id = some s
  unique : ∀ h h' id, w.handles.get? h = some (some id) → w.handles.get? h' = some (some id) →
    h = h'

/-- Every way in which a step can change the states and frames. -/
inductive Moves (w : World) : Output → World → Prop
  | silent {o : Output} {w' : World} (output : Silent o) (deleted : o.deleted = none)
      (states : w'.states = w.states) (frames : w'.frames = w.frames) : Moves w o w'
  | create {o : Output} {w' : World} (config : DnsResolverConfig) (s : State)
      (created : create config = .ok s) (output : Silent o) (deleted : o.deleted = none)
      (states : w'.states = w.states.push s) (frames : w'.frames = w.frames) : Moves w o w'
  | enter {α : Type} (id : ℕ) (s : State) (outcome : Outcome α) (returned : Returned)
      (state : w.states.get? id = some s)
      (advance : Sound s → Advance s outcome.sink outcome.state)
      (other : ∀ id', id' ≠ id → returned.tokenOf id' = none)
      (fresh : Sound s → ∀ t, returned.tokenOf id = some t →
        ¬ Issued s.nextToken t ∧ Issued outcome.state.nextToken t) :
      Moves w (w.conclude id outcome returned).1 (w.conclude id outcome returned).2
  | delete {o : Output} {w' : World} (id : ℕ) (s : State) (state : w.states.get? id = some s)
      (output : Silent o) (deleted : o.deleted = some id) (states : w'.states = w.states.erase id)
      (frames : w'.frames = w.frames) : Moves w o w'
  | resume (returned : Returned) (frames : List Returned) (top : w.frames = returned :: frames) :
      Moves w { returned := some returned } { w with frames := frames }

section Worlds

variable {trace : List (Call × Output)} {w w' : World} {o : Output}

variable {handle id : ℕ}

theorem call_cases {α : Type} {body : State → Option (Outcome α)}
    {returned : Option ℕ → Result α → Returned} (h : w.call handle body returned = some (o, w')) :
    (∃ e, o = { returned := some (returned none (.error e)) } ∧ w' = w) ∨
      ∃ id s outcome, w.handles.get? handle = some (some id) ∧ w.states.get? id = some s ∧
        body s = some outcome ∧
        o = (w.conclude id outcome (returned (some id) outcome.value)).1 ∧
        w' = (w.conclude id outcome (returned (some id) outcome.value)).2 := by
  obtain ⟨state, hst, h⟩ := bind_eq_some_iff.mp h
  cases state with
  | none =>
    cases h
    exact .inl ⟨_, rfl, rfl⟩
  | some id =>
    obtain ⟨s, hs, h⟩ := bind_eq_some_iff.mp h
    obtain ⟨outcome, hbody, h⟩ := bind_eq_some_iff.mp h
    have hconclude := some.inj h
    exact .inr ⟨id, s, outcome, hst, hs, hbody, (congrArg Prod.fst hconclude).symm,
      (congrArg Prod.snd hconclude).symm⟩

variable {deleted : Option ℕ}

variable {n : Native}

theorem release_cases (h : w.release handle n = some (deleted, w')) :
    (w.handles.get? handle = some none ∧ deleted = none ∧ w' = w) ∨
      ∃ id s, w.handles.get? handle = some (some id) ∧ w.states.get? id = some s ∧
        deleted = some id ∧
        w' = { w with states := w.states.erase id, handles := w.handles.set handle none } := by
  obtain ⟨state, hst, h⟩ := bind_eq_some_iff.mp h
  cases state with
  | none =>
    cases h
    exact .inl ⟨hst, rfl, rfl⟩
  | some id =>
    obtain ⟨s, hs, h⟩ := bind_eq_some_iff.mp h
    obtain ⟨_, _, h⟩ := bind_eq_some_iff.mp h
    cases h
    exact .inr ⟨id, s, hst, hs, rfl, rfl⟩

/-- A call that returns a status. -/
theorem status_moves {body : State → Option (Outcome Unit)}
    (hbody : ∀ s outcome, Sound s → body s = some outcome →
      Advance s outcome.sink outcome.state)
    (h : w.call handle body (fun _ => Returned.status) = some (o, w')) : Moves w o w' := by
  rcases call_cases h with ⟨e, rfl, rfl⟩ | ⟨id, s, outcome, -, hs, hc, rfl, rfl⟩
  · exact .silent ⟨rfl, fun _ => rfl⟩ rfl rfl rfl
  · exact .enter id s outcome _ hs (fun hsound => hbody s outcome hsound hc) (fun _ _ => rfl)
      fun _ _ h => nomatch h

theorem resolve_moves {hostname : List (BitVec 8)} {family : DnsQueryFamily}
    (h : w.call handle (resolve · hostname family n) Returned.resolved = some (o, w')) :
    Moves w o w' := by
  rcases call_cases h with ⟨e, rfl, rfl⟩ | ⟨id, s, outcome, -, hs, hc, rfl, rfl⟩
  · exact .silent ⟨rfl, fun _ => rfl⟩ rfl rfl rfl
  refine .enter id s outcome _ hs (fun hsound => (resolve_advance hsound hc).1) ?_ ?_
  · intro id' hid
    cases outcome.value with
    | error e => rfl
    | ok token => exact if_neg (Ne.symm hid)
  intro hsound t ht
  refine (resolve_advance hsound hc).2 t ?_
  cases hv : outcome.value with
  | error e =>
    rw [hv] at ht
    cases ht
  | ok token =>
    rw [hv] at ht
    have htoken := (if_pos rfl).symm.trans ht
    cases htoken
    rfl

theorem release_moves {u : World} (h : w.release handle n = some (deleted, u))
    (hstates : w'.states = u.states) (hframes : w'.frames = u.frames) :
    Moves w { returned := some .done, deleted := deleted } w' := by
  rcases release_cases h with ⟨-, rfl, rfl⟩ | ⟨id, s, -, hs, rfl, rfl⟩
  · exact .silent ⟨rfl, fun _ => rfl⟩ rfl hstates hframes
  · exact .delete id s hs ⟨rfl, fun _ => rfl⟩ rfl hstates hframes

theorem step_moves {call : Call} (hstep : step w call = some (o, w')) : Moves w o w' := by
  cases call with
  | create config =>
    unfold step at hstep
    dsimp only at hstep
    cases hcre : create config with
    | error e =>
      rw [hcre] at hstep
      cases hstep
      exact .silent ⟨rfl, fun _ => rfl⟩ rfl rfl rfl
    | ok s =>
      rw [hcre] at hstep
      cases hstep
      exact .create config s hcre ⟨rfl, fun _ => rfl⟩ rfl rfl rfl
  | resolve handle hostname family n => exact resolve_moves hstep
  | cancel handle token n =>
    exact status_moves (fun _ _ hs hcancel => (cancel_advance hs hcancel).1) hstep
  | processEvents handle events n =>
    exact status_moves (fun _ _ hs hproc => processEvents_advance hs hproc) hstep
  | processTimeout handle n =>
    exact status_moves (fun _ _ hs hproc => processQueries_advance hs hproc) hstep
  | moveConstruct handle =>
    obtain ⟨state, -, hstep⟩ := bind_eq_some_iff.mp hstep
    cases hstep
    exact .silent ⟨rfl, fun _ => rfl⟩ rfl rfl rfl
  | moveAssign handle other n =>
    unfold step at hstep
    dsimp only at hstep
    split_ifs at hstep
    · obtain ⟨_, -, hstep⟩ := bind_eq_some_iff.mp hstep
      cases hstep
      exact .silent ⟨rfl, fun _ => rfl⟩ rfl rfl rfl
    obtain ⟨⟨deleted, u⟩, hrel, hstep⟩ := bind_eq_some_iff.mp hstep
    obtain ⟨state, -, hstep⟩ := bind_eq_some_iff.mp hstep
    cases hstep
    exact release_moves hrel rfl rfl
  | destroy handle n =>
    obtain ⟨⟨deleted, u⟩, hrel, hstep⟩ := bind_eq_some_iff.mp hstep
    cases hstep
    exact release_moves hrel rfl rfl
  | sinkReturn =>
    unfold step at hstep
    cases hframes : w.frames with
    | nil =>
      rw [hframes] at hstep
      cases hstep
    | cons returned frames =>
      rw [hframes] at hstep
      cases hstep
      exact .resume returned frames hframes

theorem step_ledgers {call : Call} (h : LedgersSound trace w) (hstep : step w call = some (o, w')) :
    LedgersSound (trace ++ [(call, o)]) w' := by
  cases step_moves hstep with
  | silent output deleted states frames =>
    exact h.silent output frames (states ▸ rfl) fun _ => .inl (states ▸ rfl)
  | create config s created output deleted states frames =>
    exact h.create created output frames states
  | enter id s outcome returned state advance other fresh =>
    have hs := ((h.ledgers id).alive s state).1
    exact h.conclude state (advance hs) other (fresh hs)
  | delete id s state output deleted states frames =>
    refine h.silent output frames (states ▸ size_erase _ _) fun id' => ?_
    rw [states]
    by_cases hid : id' = id
    · exact .inr (hid ▸ get?_erase_self _ _)
    · exact .inl (get?_erase_ne _ hid)
  | resume returned frames top => exact h.resume top

theorem run_ledgers (run : Runs.Run system {} trace w) : LedgersSound trace w := by
  refine run.history (fun _ _ _ _ _ h _ hstep => step_ledgers h hstep)
    ⟨fun id => ?_, fun _ _ => rfl⟩
  refine ⟨nodup_nil, nodup_nil, fun s hs => ?_⟩
  cases hs

/-- A deleted state stays deleted, and its sink is not called any more. -/
theorem step_deleted {call : Call} (hid : id < w.states.size) (hdead : w.states.get? id = none)
    (hstep : step w call = some (o, w')) :
    id < w'.states.size ∧ w'.states.get? id = none ∧ o.sunkOf id = [] := by
  cases step_moves hstep with
  | silent output deleted states frames =>
    exact ⟨states ▸ hid, states ▸ hdead, by rw [Output.sunkOf, output.sink]; rfl⟩
  | create config s created output deleted states frames =>
    refine ⟨?_, ?_, by rw [Output.sunkOf, output.sink]; rfl⟩
    · rw [states, size_push]
      exact Nat.lt_succ_of_lt hid
    · rw [states, get?_push_lt _ _ hid]
      exact hdead
  | enter id' s outcome returned state advance other fresh =>
    have hne : id' ≠ id := by
      rintro rfl
      rw [hdead] at state
      cases state
    obtain ⟨hstates, -⟩ := conclude_states w id' outcome returned
    refine ⟨?_, ?_, ?_⟩
    · rw [hstates, size_set]
      exact hid
    · rw [hstates, get?_set_ne _ _ (Ne.symm hne)]
      exact hdead
    · rw [conclude_sunkOf, if_neg hne]
  | delete id' s state output deleted states frames =>
    refine ⟨?_, ?_, by rw [Output.sunkOf, output.sink]; rfl⟩
    · rw [states, size_erase]
      exact hid
    rw [states]
    by_cases hne : id = id'
    · exact hne ▸ get?_erase_self _ _
    · exact (get?_erase_ne _ hne).trans hdead
  | resume returned frames top => exact ⟨hid, hdead, rfl⟩

theorem run_deleted (hid : id < w.states.size) (hdead : w.states.get? id = none)
    (run : Runs.Run system w trace w') : sunkTokens id trace = [] := by
  have hhist : id < w'.states.size ∧ w'.states.get? id = none ∧ sunkTokens id trace = [] := by
    refine run.history (P := fun trace w => id < w.states.size ∧ w.states.get? id = none ∧
      sunkTokens id trace = []) ?_ ⟨hid, hdead, rfl⟩
    rintro trace w call o w' ⟨hid, hdead, hsunk⟩ - hstep
    obtain ⟨hid', hdead', hsunk'⟩ := step_deleted hid hdead hstep
    refine ⟨hid', hdead', ?_⟩
    rw [sunkTokens, flatMap_append, flatMap_singleton, hsunk', append_nil]
    exact hsunk
  exact hhist.2.2

theorem Owned.call {α : Type} {body : State → Option (Outcome α)}
    {returned : Option ℕ → Result α → Returned} (h : Owned w)
    (hc : w.call handle body returned = some (o, w')) : Owned w' := by
  rcases call_cases hc with ⟨e, rfl, rfl⟩ | ⟨id, s, outcome, -, hs, -, rfl, rfl⟩
  · exact h
  obtain ⟨hstates, hhandles⟩ := conclude_states w id outcome (returned (some id) outcome.value)
  refine ⟨fun handle' id' hid => ?_, fun handle' handle'' id' => ?_⟩
  · rw [hhandles] at hid
    rw [hstates]
    obtain ⟨s', hs'⟩ := h.live handle' id' hid
    exact live_set id outcome.state hs'
  · rw [hhandles]
    exact h.unique handle' handle'' id'

theorem Owned.release (h : Owned w) (hrel : w.release handle n = some (deleted, w')) :
    Owned w' ∧ w'.handles.get? handle = some none := by
  rcases release_cases hrel with ⟨hnull, rfl, rfl⟩ | ⟨id, s, hid, hs, rfl, rfl⟩
  · exact ⟨h, hnull⟩
  refine ⟨⟨fun handle' id' hid' => ?_, fun handle' handle'' id' hid' hid'' => ?_⟩,
    get?_set_self _ hid⟩
  · rcases get?_set_cases hid' with ⟨-, hnull⟩ | ⟨hne, hold⟩
    · cases hnull
    obtain ⟨s', hs'⟩ := h.live handle' id' hold
    have ho : id' ≠ id := by
      rintro rfl
      exact hne (h.unique handle' handle id' hold hid)
    exact ⟨s', (get?_erase_ne _ ho).trans hs'⟩
  · rcases get?_set_cases hid' with ⟨-, hnull⟩ | ⟨-, hid'⟩
    · cases hnull
    rcases get?_set_cases hid'' with ⟨-, hnull⟩ | ⟨-, hid''⟩
    · cases hnull
    exact h.unique handle' handle'' id' hid' hid''

/-- A handle takes over what another one owned. -/
theorem Owned.transfer {source : ℕ} (target : ℕ) {state : Option ℕ} {handles : Table (Option ℕ)}
    (h : Owned w) (hsrc : w.handles.get? source = some state)
    (hm : ∀ handle id, handles.get? handle = some (some id) → handle = target ∧ state = some id ∨
        handle ≠ source ∧ handle ≠ target ∧ w.handles.get? handle = some (some id)) :
    Owned { w with handles := handles } := by
  refine ⟨fun handle id hid => ?_, fun handle handle' id hid hid' => ?_⟩
  · rcases hm handle id hid with ⟨-, rfl⟩ | ⟨-, -, hold⟩
    · exact h.live source id hsrc
    · exact h.live handle id hold
  rcases hm handle id hid with ⟨rfl, rfl⟩ | ⟨hne, -, hold⟩
  · rcases hm handle' id hid' with ⟨rfl, -⟩ | ⟨hne, -, hold⟩
    · rfl
    · exact absurd (h.unique handle' source id hold hsrc) hne
  rcases hm handle' id hid' with ⟨rfl, rfl⟩ | ⟨-, -, hold'⟩
  · exact absurd (h.unique handle source id hold hsrc) hne
  · exact h.unique handle handle' id hold hold'

theorem step_owned {call : Call} (h : Owned w) (hstep : step w call = some (o, w')) : Owned w' := by
  cases call with
  | create config =>
    unfold step at hstep
    dsimp only at hstep
    cases hcre : create config with
    | error e =>
      rw [hcre] at hstep
      cases hstep
      exact h
    | ok s =>
      rw [hcre] at hstep
      cases hstep
      have hold : ∀ handle id, (w.handles.push (some w.states.size)).get? handle = some (some id) →
          handle = w.handles.size ∧ id = w.states.size ∨
            w.handles.get? handle = some (some id) := by
        intro handle id hid
        rcases get?_push_cases hid with ⟨hnew, hid⟩ | hid
        · exact .inl ⟨hnew, some.inj hid⟩
        · exact .inr hid
      refine ⟨fun handle id hid => ?_, fun handle handle' id hid hid' => ?_⟩
      · rcases hold handle id hid with ⟨-, rfl⟩ | hid
        · exact ⟨s, get?_push_size _ _⟩
        · obtain ⟨s', hs'⟩ := h.live handle id hid
          exact ⟨s', get?_push_of_some _ hs'⟩
      have hfresh : ∀ handle, w.handles.get? handle ≠ some (some w.states.size) := by
        intro handle hnew
        obtain ⟨s', hs'⟩ := h.live handle _ hnew
        exact absurd (lt_size_of_get? hs') (Nat.lt_irrefl _)
      rcases hold handle id hid with ⟨rfl, rfl⟩ | hid
      · rcases hold handle' _ hid' with ⟨rfl, -⟩ | hid'
        · rfl
        · exact absurd hid' (hfresh handle')
      rcases hold handle' id hid' with ⟨rfl, rfl⟩ | hid'
      · exact absurd hid (hfresh handle)
      · exact h.unique handle handle' id hid hid'
  | resolve handle hostname family n => exact h.call hstep
  | cancel handle token n | processEvents handle events n | processTimeout handle n =>
    simp only [step] at hstep
    exact h.call hstep
  | moveConstruct handle =>
    obtain ⟨state, hst, hstep⟩ := bind_eq_some_iff.mp hstep
    cases hstep
    refine h.transfer w.handles.size hst fun handle' id hid => ?_
    rcases get?_push_cases hid with ⟨hnew, hid⟩ | hid
    · exact .inl ⟨by rwa [size_set] at hnew, hid.symm⟩
    rcases get?_set_cases hid with ⟨-, hnull⟩ | ⟨hne, hid⟩
    · cases hnull
    · exact .inr ⟨hne, (lt_size_of_get? hid).ne, hid⟩
  | moveAssign handle other n =>
    unfold step at hstep
    dsimp only at hstep
    split_ifs at hstep
    · obtain ⟨_, -, hstep⟩ := bind_eq_some_iff.mp hstep
      cases hstep
      exact h
    obtain ⟨⟨deleted, u⟩, hrel, hstep⟩ := bind_eq_some_iff.mp hstep
    obtain ⟨state, hst, hstep⟩ := bind_eq_some_iff.mp hstep
    cases hstep
    obtain ⟨ho, -⟩ := h.release hrel
    refine ho.transfer handle hst fun handle' id hid => ?_
    rcases get?_set_cases hid with ⟨hsame, hid⟩ | ⟨hne, hid⟩
    · exact .inl ⟨hsame, hid.symm⟩
    rcases get?_set_cases hid with ⟨-, hnull⟩ | ⟨hne', hid⟩
    · cases hnull
    · exact .inr ⟨hne', hne, hid⟩
  | destroy handle n =>
    obtain ⟨⟨deleted, u⟩, hrel, hstep⟩ := bind_eq_some_iff.mp hstep
    cases hstep
    obtain ⟨ho, -⟩ := h.release hrel
    exact ⟨fun handle' id hid => ho.live handle' id (get?_erase_cases hid).2,
      fun handle' handle'' id hid hid' => ho.unique handle' handle'' id
        (get?_erase_cases hid).2 (get?_erase_cases hid').2⟩
  | sinkReturn =>
    unfold step at hstep
    cases hframes : w.frames with
    | nil =>
      rw [hframes] at hstep
      cases hstep
    | cons returned frames =>
      rw [hframes] at hstep
      cases hstep
      exact ⟨h.live, h.unique⟩

theorem run_owned (run : Runs.Run system {} trace w) : Owned w :=
  run.invariant (fun _ _ _ _ h _ hstep => step_owned h hstep)
    ⟨(fun _ _ h => nomatch h), fun _ _ _ h => nomatch h⟩

end Worlds

/-- A cancellation that does not fail reports the query. -/
theorem cancel_reports {w w' : World} {handle : ℕ} {token : DnsQueryToken} {n : Native}
    {o : Output} {trace : List (Call × Output)} (h : LedgersSound trace w)
    (hstep : step w (.cancel handle token n) = some (o, w')) :
    (∃ e, o.returned = some (.status (.error e))) ∨
      ∃ id, o.sink = some (id, canceledResult token) := by
  simp only [step] at hstep
  rcases call_cases hstep with ⟨e, rfl, rfl⟩ | ⟨id, s, outcome, -, hs, hc, rfl, rfl⟩
  · exact .inl ⟨e, rfl⟩
  obtain ⟨-, ⟨⟨e, he⟩, hsink⟩ | ⟨-, hsink⟩⟩ := cancel_advance ((h.ledgers id).alive s hs).1 hc
  · refine .inl ⟨e, ?_⟩
    unfold World.conclude
    rw [hsink, he]
  · refine .inr ⟨id, ?_⟩
    unfold World.conclude
    rw [hsink]

theorem step_deletes {w w' : World} {call : Call} {o : Output} {id : ℕ}
    (hstep : step w call = some (o, w')) (hdeleted : o.deleted = some id) :
    id < w'.states.size ∧ w'.states.get? id = none := by
  cases step_moves hstep with
  | silent output deleted states frames | create config s created output deleted states frames =>
    rw [deleted] at hdeleted
    cases hdeleted
  | enter id' s outcome returned state advance other fresh =>
    unfold World.conclude at hdeleted
    revert hdeleted
    cases outcome.sink <;> exact fun h => nomatch h
  | delete id' s state output deleted states frames =>
    rw [deleted, some.injEq] at hdeleted
    subst hdeleted
    rw [states, size_erase]
    exact ⟨lt_size_of_get? state, get?_erase_self _ _⟩
  | resume returned frames top => cases hdeleted

/-- In every run, whatever is called from inside the sink and whatever c-ares does within
its contract: a token receives at most one completion, exactly one once the callback of
its native query was called, also when its resolver was deleted since, and none after
that; a cancellation that succeeds reports the query; no token is returned twice; and
between calls the outstanding queries are the active slots, within the limit, so that
`resolve` finds a free slot below it. -/
theorem dns_resolver_sound {trace : List (Call × Output)} {w : World}
    (run : Runs.Run system {} trace w) :
    (∀ id token, (sunkTokens id trace).count token ≤ 1) ∧
    (∀ id s, w.states.get? id = some s → sunkTokens id trace = s.completed) ∧
    (∀ before after u id s token, trace = before ++ after → Runs.Run system {} before u →
      u.states.get? id = some s → token ∈ s.completed →
      (sunkTokens id trace).count token = 1) ∧
    (∀ handle token n o, (Call.cancel handle token n, o) ∈ trace →
      (∃ e, o.returned = some (.status (.error e))) ∨
        ∃ id, o.sink = some (id, canceledResult token)) ∧
    (∀ before call o after id, trace = before ++ (call, o) :: after → o.deleted = some id →
      sunkTokens id after = []) ∧
    (∀ id, (returnedTokens id trace).Nodup) ∧
    (∀ id s, w.states.get? id = some s → s.outstanding = (s.queries.filter (·.active)).length ∧
      s.outstanding ≤ s.limits.maximumOutstandingQueries ∧
      (s.outstanding < s.limits.maximumOutstandingQueries → (freeSlot s).isSome = true)) ∧
    Owned w := by
  have hledgers := run_ledgers run
  have honce : ∀ id, (sunkTokens id trace).Nodup := fun id => (hledgers.ledgers id).once
  refine ⟨fun id => List.nodup_iff_count_le_one.mp (honce id), ?_, ?_, ?_, ?_, ?_, ?_,
    run_owned run⟩
  · intro id s hs
    exact ((hledgers.ledgers id).alive s hs).2.1
  · intro before after u id s token htrace hbefore hs hmem
    have hsunk : sunkTokens id before = s.completed :=
      (((run_ledgers hbefore).ledgers id).alive s hs).2.1
    refine List.count_eq_one_of_mem (honce id) ?_
    rw [← hsunk] at hmem
    rw [htrace, sunkTokens, flatMap_append]
    exact mem_append_left _ hmem
  · intro handle token n o hmem
    obtain ⟨before, after, rfl⟩ := List.append_of_mem hmem
    obtain ⟨u, v, hbefore, -, hstep, -⟩ := run.split
    exact cancel_reports (run_ledgers hbefore) hstep
  · intro before call o after id htrace hdeleted
    subst htrace
    obtain ⟨u, v, -, -, hstep, hafter⟩ := run.split
    obtain ⟨hid, hdead⟩ := step_deletes hstep hdeleted
    exact run_deleted hid hdead hafter
  · intro id
    exact (hledgers.ledgers id).distinct.of_append_left
  intro id s hs
  have hsound := ((hledgers.ledgers id).alive s hs).1
  refine ⟨?_, hsound.bounded, hsound.freeSlot_isSome⟩
  rw [hsound.counted, length_activeTokens]

def sampleConfig : DnsResolverConfig := { limits := ⟨2, 4, 1000, 3⟩ }

/-- The second query opens a socket. When there is something to read from it the query
is not found, and its completion cancels the first query from inside the sink. -/
def completingTrace : List (Call × Output) :=
  [(.create sampleConfig, { returned := some (.created (.ok 0)) }),
    (.resolve 0 [97#8] .any {}, { returned := some (.resolved (some 0) (.ok 1#64)) }),
    (.resolve 0 [98#8] .ipv4 { getaddrinfo := [.socketState 7 true false] },
      { returned := some (.resolved (some 0) (.ok 2#64)) }),
    (.processEvents 0 [⟨7, true, false⟩] { processFd := fun _ => [.addressComplete .enotfound []] },
      { sink := some (0, ⟨2#64, [], some (nativeError .dnsQuery .enotfound)⟩) }),
    (.cancel 0 1#64 { cancel := [.addressComplete .ecancelled []] },
      { sink := some (0, canceledResult 1#64) })]

/-- The resolver is destroyed before the two calls return. -/
def closingTrace : List (Call × Output) :=
  [(.destroy 0 {}, { returned := some .done, deleted := some 0 }),
    (.sinkReturn, { returned := some (.status (.ok ())) }),
    (.sinkReturn, { returned := some (.status (.ok ())) })]

theorem reentrant_run : ∃ u s w, Runs.Run system {} completingTrace u ∧
    u.states.get? 0 = some s ∧ s.completed = [2#64, 1#64] ∧ Runs.Run system u closingTrace w :=
  ⟨_, _, _, .cons trivial rfl <| .cons trivial rfl <| .cons trivial rfl <| .cons trivial rfl <|
    .cons trivial rfl <| .refl _, rfl, rfl,
    .cons trivial rfl <| .cons trivial rfl <| .cons trivial rfl <| .refl _⟩

theorem dns_resolver_sound_reentrant :
    ∃ w, Runs.Run system {} (completingTrace ++ closingTrace) w ∧
      (sunkTokens 0 (completingTrace ++ closingTrace)).count 1#64 = 1 ∧
      (sunkTokens 0 (completingTrace ++ closingTrace)).count 2#64 = 1 ∧ Owned w := by
  obtain ⟨u, s, w, hbefore, hs, hcompleted, hafter⟩ := reentrant_run
  have run := hbefore.append hafter
  obtain ⟨-, -, hone, -, -, -, -, howned⟩ := dns_resolver_sound run
  refine ⟨w, run, hone _ _ u 0 s 1#64 rfl hbefore hs ?_, hone _ _ u 0 s 2#64 rfl hbefore hs ?_,
    howned⟩
  · simp [hcompleted]
  · simp [hcompleted]

end Laghu.DnsResolvers
