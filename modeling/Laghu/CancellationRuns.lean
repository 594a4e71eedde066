import Laghu.CancellationPaths

/-!
Any number of threads race on the cancellation states. At most one
compare-exchange on a state succeeds, and all outcomes that are ever reported
for it agree with the value it stored.
-/

namespace Laghu.Cancellation

open Contract AtomicPrograms Runs List CancellationState Machine

abbrev State := Config Answer (Result CancellationOutcome) Call States

abbrev History := List (Move Call Clocks × Event Answer (Result CancellationOutcome))

section Memory

variable {states states' : States} {clocks : Clocks} {state : ℕ}

variable {stored : StoredTerminal}

theorem outcome_isTerminal : stored.outcome.isTerminal = true ↔ stored ≠ .pending := by
  cases stored <;> decide

theorem answer_load (h : answer states clocks (.load state) = (stored, states')) :
    stored = states state ∧ states' = states := by
  cases h
  exact ⟨rfl, rfl⟩

theorem answer_compareExchange {requested : StoredTerminal} {exchanged : Bool}
    (h : answer states clocks (.compareExchange state requested) = (exchanged, states')) :
    (states state = .pending ∧ exchanged = true ∧
      states' = fun other => if other = state then requested else states other) ∨
    (states state ≠ .pending ∧ exchanged = false ∧ states' = states) := by
  change (if states state = .pending then _ else _) = _ at h
  split at h
  · rename_i hpend
    cases h
    exact .inl ⟨hpend, rfl, rfl⟩
  rename_i hpend
  cases h
  exact .inr ⟨hpend, rfl, rfl⟩

/-- An action that requests nothing leaves all states as they are. -/
theorem answer_within {a : Action} {r : Answer a} (ha : a.Within none)
    (h : answer states clocks a = (r, states')) : states' = states := by
  cases a with
  | load j => exact (answer_load h).2
  | compareExchange j requested => cases ha j requested rfl
  | now =>
    cases h
    rfl
  | monotonicNow =>
    cases h
    rfl

/-- A state that is not pending survives every action. -/
theorem answer_stable {a : Action} {r : Answer a} (hst : states state ≠ .pending)
    (h : answer states clocks a = (r, states')) : states' state = states state := by
  cases a with
  | compareExchange j requested =>
    rcases answer_compareExchange h with ⟨hpend, _, rfl⟩ | ⟨_, _, rfl⟩
    · have ho : state ≠ j := fun heq => hst (heq ▸ hpend)
      exact if_neg ho
    · rfl
  | load j => rw [(answer_load h).2]
  | now =>
    cases h
    rfl
  | monotonicNow =>
    cases h
    rfl

end Memory

section Stability

variable {β γ : Type} {code : γ → Program Answer β} {u w : Config Answer β γ States}
  {trace before after : List (Move γ Clocks × Event Answer β)} {state id : ℕ} {clocks : Clocks}

/-- Threads that run any code on the cancellation states. -/
abbrev racing (code : γ → Program Answer β) : Machine Answer β γ States Clocks := ⟨code, answer⟩

theorem acted_answer {a : Action} {r : Answer a}
    (h : (racing code).system.step u (.advance id clocks) = some (.acted a r, w)) :
    answer u.shared clocks a = (r, w.shared) :=
  Machine.acted_answer h

theorem run_stable (h : Run (racing code).system u trace w) (hu : u.shared state ≠ .pending) :
    w.shared state = u.shared state := by
  apply h.invariant (P := fun c => c.shared state = u.shared state)
  · intro c move event c' hc _ hstep
    rcases shared_cases hstep with ⟨_, hshared⟩ | ⟨_, _, _, _, _, _, hanswer⟩
    · rw [hshared, hc]
    · rw [answer_stable (hc ▸ hu) hanswer, hc]
  · rfl

variable {stored : StoredTerminal}

/-- Once a state has a value, that value is all a load can see. -/
theorem load_settled (h : Run (racing code).system u trace w) (hu : u.shared state ≠ .pending)
    (hload : (.advance id clocks, .acted (.load state) stored) ∈ trace) :
    stored = u.shared state := by
  obtain ⟨before, after, rfl⟩ := append_of_mem hload
  obtain ⟨c, c', hc, _, hstep, _⟩ := h.split
  rw [(answer_load (acted_answer hstep)).1, run_stable hc hu]

/-- A state that is the same at both ends of a run was the same throughout. -/
theorem load_between (h : Run (racing code).system u trace w)
    (hsame : w.shared state = u.shared state)
    (hload : (.advance id clocks, .acted (.load state) stored) ∈ trace) :
    stored = u.shared state := by
  by_cases hu : u.shared state = .pending
  · obtain ⟨before, after, rfl⟩ := append_of_mem hload
    obtain ⟨c, c', _, _, hstep, ha⟩ := h.split
    obtain ⟨hseen, hshared⟩ := answer_load (acted_answer hstep)
    have hc : c.shared state = .pending := by
      by_contra hne
      rw [← hshared] at hne
      rw [← run_stable ha hne, hsame] at hne
      exact hne hu
    rw [hseen, hc, hu]
  · exact load_settled h hu hload

/-- What a load saw, if it was a value at all, stays. -/
theorem load_final (h : Run (racing code).system u
      (before ++ (.advance id clocks, .acted (.load state) stored) :: after) w)
    (hstored : stored ≠ .pending) : w.shared state = stored := by
  obtain ⟨c, c', _, _, hstep, ha⟩ := h.split
  obtain ⟨hseen, hshared⟩ := answer_load (acted_answer hstep)
  have hc' : c'.shared state = stored := by rw [hshared, hseen]
  rw [run_stable ha (hc' ▸ hstored), hc']

/-- After a compare-exchange the state is not pending, whoever stored its value. -/
theorem exchange_settles {requested : StoredTerminal} {exchanged : Bool}
    (h : Run (racing code).system u (before ++
        (.advance id clocks, .acted (.compareExchange state requested) exchanged) :: after) w)
    (hreq : requested ≠ .pending) :
    ∃ c, Run (racing code).system c after w ∧ c.shared state ≠ .pending := by
  obtain ⟨c, c', _, _, hstep, ha⟩ := h.split
  refine ⟨c', ha, ?_⟩
  rcases answer_compareExchange (acted_answer hstep) with ⟨_, _, hshared⟩ | ⟨hc, _, hshared⟩
  · rw [hshared]
    simpa using hreq
  · rw [hshared]
    exact hc

end Stability

variable {u w : State} {trace before after : History} {state id : ℕ} {clocks : Clocks}

section Winners

/-- The event is a compare-exchange on `state` that succeeded. -/
def isWin (state : ℕ) : Move Call Clocks × Event Answer (Result CancellationOutcome) → Bool
  | (_, .acted (.compareExchange target _) exchanged) => target == state && exchanged
  | _ => false

def wins (state : ℕ) (trace : History) : ℕ := trace.countP (isWin state)

/-- As long as `state` is pending nobody has won; afterwards it holds the value
of the only winner. -/
def Decided (state : ℕ) (trace : History) (c : State) : Prop :=
  (c.shared state = .pending ∧ wins state trace = 0) ∨
  (c.shared state ≠ .pending ∧ wins state trace = 1 ∧
    ∃ id, Performs trace id ⟨.compareExchange state (c.shared state), true⟩)

theorem wins_append (event : Move Call Clocks × Event Answer (Result CancellationOutcome)) :
    wins state (trace ++ [event]) = wins state trace + if isWin state event then 1 else 0 := by
  simp [wins, countP_append, countP_cons]

theorem Decided.other {event : Move Call Clocks × Event Answer (Result CancellationOutcome)}
    (h : Decided state trace u) (hshared : w.shared state = u.shared state)
    (he : isWin state event = false) : Decided state (trace ++ [event]) w := by
  unfold Decided
  rw [hshared, wins_append, he]
  rcases h with hpend | ⟨hv, hwins, winner, e, hmem⟩
  · exact .inl hpend
  · exact .inr ⟨hv, hwins, winner, e, mem_append_left _ hmem⟩

variable {requested : StoredTerminal}

theorem Decided.win (h : Decided state trace u) (hu : u.shared state = .pending)
    (hw : w.shared state = requested) (hreq : requested ≠ .pending) :
    Decided state
      (trace ++ [(.advance id clocks, .acted (.compareExchange state requested) true)]) w := by
  rcases h with ⟨_, hwins⟩ | ⟨hv, _⟩
  · refine .inr ⟨hw ▸ hreq, ?_, id, clocks, ?_⟩
    · rw [wins_append, hwins]
      simp [isWin]
    · rw [hw]
      exact mem_append_right _ (mem_singleton_self _)
  · exact absurd hu hv

/-- The winner is a call that requested the value. -/
theorem exchange_requested {exchanged : Bool} (h : Run machine.system initial (before ++
        (.advance id clocks, .acted (.compareExchange state requested) exchanged) :: after) w) :
    ∃ call, Invokes before id call ∧ call.request = some (state, requested) := by
  obtain ⟨call, _, _, _, hc, hpath, _⟩ := acted_path h
  exact ⟨call, hc, (body_within call).next hpath exchanged state requested rfl⟩

theorem decided_step {move : Move Call Clocks} {event : Event Answer (Result CancellationOutcome)}
    (hrun : Run machine.system initial (trace ++ [(move, event)]) w)
    (h : Decided state trace u) (hstep : machine.system.step u move = some (event, w)) :
    Decided state (trace ++ [(move, event)]) w := by
  rcases shared_cases hstep with ⟨he, hshared⟩ | ⟨id, e, a, r, rfl, rfl, hanswer⟩
  · refine h.other (congrFun hshared state) ?_
    cases event with
    | started i => rfl
    | returned b => rfl
    | acted a r => exact absurd rfl (he a r)
  have hanswer : answer u.shared e a = (r, w.shared) := hanswer
  cases a with
  | load j | now | monotonicNow =>
    exact h.other (congrFun (answer_within (fun _ _ ha => by cases ha) hanswer) state) rfl
  | compareExchange j requested =>
    obtain ⟨call, _, hreq⟩ := exchange_requested hrun
    rcases answer_compareExchange hanswer with ⟨hpend, rfl, hw⟩ | ⟨_, rfl, hw⟩
    · by_cases hj : j = state
      · subst hj
        exact h.win hpend (by rw [hw]; exact if_pos rfl) (Call.request_ne_pending hreq)
      refine h.other ?_ ?_
      · rw [hw]
        exact if_neg (Ne.symm hj)
      · simp [isWin, hj]
    · exact h.other (congrFun hw state) (Bool.and_false _)

theorem run_decided (state : ℕ) (h : Run machine.system initial trace w) :
    Decided state trace w := by
  have hboth : Run machine.system initial trace w ∧ Decided state trace w := by
    apply h.history (P := fun trace c => Run machine.system initial trace c ∧ Decided state trace c)
    · intro trace c move event c' hc hl hstep
      have hrun := hc.1.tail hl hstep
      exact ⟨hrun, decided_step hrun hc.2 hstep⟩
    · exact ⟨.refl _, .inl ⟨rfl, rfl⟩⟩
  exact hboth.2

end Winners

section Outcomes

variable {call : Call} {o : CancellationOutcome}

/-- Every terminal outcome is that of the value finally stored. -/
theorem returned_agrees (h : Run machine.system initial trace w) (hc : Invokes trace id call)
    (hon : call.On state) (hret : Returns trace id (.ok o)) (ho : o.isTerminal = true) :
    o = (w.shared state).outcome ∧ w.shared state ≠ .pending := by
  obtain ⟨before, after, rfl, hpath⟩ := returns_path h hc hret
  obtain ⟨earlier, stored, hacts, rfl⟩ := body_endsInLoad hon hpath
  obtain ⟨first, e, last, rfl, _, _⟩ := actsOf_split hacts
  rw [append_assoc] at h
  have hstored := outcome_isTerminal.mp ho
  have hw := load_final h hstored
  exact ⟨by rw [hw], hw ▸ hstored⟩

/-- The value that was finally stored was requested by the winner. -/
theorem winner_exists (h : Run machine.system initial trace w) (hw : w.shared state ≠ .pending) :
    ∃ winner call, Invokes trace winner call ∧ call.request = some (state, w.shared state) ∧
      Performs trace winner ⟨.compareExchange state (w.shared state), true⟩ := by
  rcases run_decided state h with ⟨hpend, _⟩ | ⟨_, _, winner, e, hmem⟩
  · exact absurd hpend hw
  obtain ⟨before, after, rfl⟩ := append_of_mem hmem
  obtain ⟨call, hc, hreq⟩ := exchange_requested h
  exact ⟨winner, call, mem_append_left _ hc, hreq, e, hmem⟩

variable {result : Result CancellationOutcome}

/-- A call that starts when the state has a value returns the outcome of that value. -/
theorem later_call {v : State} (h : Run machine.system initial (before ++ after) w)
    (hv : Run machine.system v after w) (hvalue : v.shared state ≠ .pending)
    (hc : Invokes after id call) (hon : call.On state)
    (hret : Returns (before ++ after) id result) : result = .ok (v.shared state).outcome := by
  obtain ⟨past, future, htrace, hpath⟩ :=
    returns_path h (mem_append_right _ hc) hret
  have hload : ∀ stored : StoredTerminal, ⟨.load state, stored⟩ ∈ actsOf id past →
      stored = v.shared state := by
    intro stored hmem
    have hperforms : Performs (before ++ after) id ⟨.load state, stored⟩ := by
      rw [performs_iff, htrace, actsOf_append]
      exact mem_append_left _ hmem
    obtain ⟨e, he⟩ := performs_after_start h hc hperforms
    exact load_settled hv hvalue he
  rcases body_ok hon hpath with ⟨o, rfl⟩ | ⟨stored, hmem, hpend⟩
  · obtain ⟨earlier, stored, hacts, rfl⟩ := body_endsInLoad hon hpath
    rw [hload stored (hacts ▸ mem_append_right _ (mem_singleton_self _))]
  · rw [hload stored hmem] at hpend
    exact absurd (outcome_isTerminal.mpr hvalue) hpend

variable {requested : StoredTerminal}

/-- A call of `finish` loads the state after its own compare-exchange. -/
theorem finish_terminal (h : Run machine.system initial trace w) (hcall : Invokes trace id call)
    (hbody : body call = (do return .ok (← finish state requested)))
    (hreq : requested ≠ .pending) (hret : Returns trace id result) :
    ∃ o, result = .ok o ∧ o.isTerminal = true := by
  obtain ⟨before, after, rfl, hpath⟩ := returns_path h hcall hret
  have hpath : Path (body call) (actsOf id before) (.done result) := hpath
  rw [hbody] at hpath
  obtain ⟨o, rfl, hfin⟩ := ok_path hpath
  obtain ⟨exchanged, stored, hacts, rfl⟩ := finish_path hfin
  obtain ⟨first, e, last, rfl, _, hl⟩ :=
    actsOf_split (show actsOf id before = [] ++ _ :: _ from hacts)
  obtain ⟨e', hload⟩ := performs_iff.mpr (hl ▸ mem_singleton_self _)
  rw [append_assoc, cons_append] at h
  obtain ⟨c, hr, hc⟩ := exchange_settles h hreq
  refine ⟨stored.outcome, rfl, outcome_isTerminal.mpr ?_⟩
  have hseen : stored = c.shared state := load_settled hr hc (mem_append_left _ hload)
  rw [hseen]
  exact hc

theorem finish_returns (h : Run machine.system initial trace w) (hc : Invokes trace id call)
    (hbody : body call = (do return .ok (← finish state requested)))
    (hmoves : 2 < moves id trace) : ∃ result, Returns trace id result := by
  have hdeep : (machine.body call).DepthLe 2 := by
    change (body call).DepthLe 2
    rw [hbody]
    exact Program.depthLe_bind (finish_depthLe state requested) (fun _ => Program.depthLe_done _)
  obtain ⟨result, e, hmem⟩ := returned_of_moves h hc hdeep hmoves
  exact ⟨result, e, hmem⟩

/-- A call whose clock refused changes nothing, at none of its moves. -/
theorem refused_unchanged {u v : State} {event : Event Answer (Result CancellationOutcome)}
    (h : Run machine.system initial (before ++ (.advance id clocks, event) :: after) w)
    (hc : Invokes (before ++ (.advance id clocks, event) :: after) id call)
    (href : call.Refused (actsOf id (before ++ (.advance id clocks, event) :: after)))
    (hstep : machine.system.step u (.advance id clocks) = some (event, v)) :
    v.shared = u.shared := by
  rcases shared_cases hstep with ⟨_, hshared⟩ | ⟨_, e, a, r, hmove, rfl, hanswer⟩
  · exact hshared
  cases hmove
  obtain ⟨p, hpath⟩ := call_path h hc
  have hperforms : Performs (before ++ (.advance id clocks, .acted a r) :: after) id ⟨a, r⟩ :=
    ⟨clocks, mem_append_right before mem_cons_self⟩
  exact answer_within (body_refused hpath href _ (performs_iff.mp hperforms)) hanswer

end Outcomes

/-- Whatever the schedule and the clocks: a state leaves pending at most once and
keeps its value; all terminal outcomes agree with what the winner requested; calls
that start after one was returned report it too; `complete` and `cancel` return a
terminal outcome within three of their own moves; and a refused
`cancel_if_expired` changes nothing. -/
theorem cancellation_agreement (h : Run machine.system initial trace w) (state : ℕ) :
    ((∀ before after u, trace = before ++ after → Run machine.system initial before u →
        Run machine.system u after w → u.shared state ≠ .pending →
          w.shared state = u.shared state) ∧
      wins state trace = if w.shared state = .pending then 0 else 1) ∧
    (∀ id call o, Invokes trace id call → call.On state → Returns trace id (.ok o) →
      o.isTerminal = true → o = (w.shared state).outcome ∧
        ∃ winner winning requested, Invokes trace winner winning ∧
          winning.request = some (state, requested) ∧
          Performs trace winner ⟨.compareExchange state requested, true⟩ ∧
          o = requested.outcome) ∧
    (∀ before after id call clocks o,
      trace = before ++ (.advance id clocks, .returned (.ok o)) :: after →
      Invokes trace id call → call.On state → o.isTerminal = true →
        ∀ id' call' result, Invokes after id' call' → call'.On state → Returns trace id' result →
          result = .ok o) ∧
    (∀ id call, Invokes trace id call → call = .complete ⟨state⟩ ∨ call = .cancel ⟨state⟩ →
      (∀ result, Returns trace id result → ∃ o, result = .ok o ∧ o.isTerminal = true) ∧
      (2 < moves id trace → ∃ result, Returns trace id result) ∧
      ((∀ result, ¬ Returns trace id result) → ∀ clocks,
        machine.system.legal w (.advance id clocks) ∧
          (machine.system.step w (.advance id clocks)).isSome = true)) ∧
    ∀ id call, Invokes trace id call → call.Refused (actsOf id trace) →
      ∀ before clocks event after u v, trace = before ++ (.advance id clocks, event) :: after →
        Run machine.system initial before u →
        machine.system.step u (.advance id clocks) = some (event, v) → v.shared = u.shared := by
  refine ⟨⟨?_, ?_⟩, ?_, ?_, ?_, ?_⟩
  · intro before after u _ _ hafter hu
    exact run_stable hafter hu
  · rcases run_decided state h with ⟨hpending, hwins⟩ | ⟨hvalue, hwins, _⟩
    · rw [hwins, if_pos hpending]
    · rw [hwins, if_neg hvalue]
  · intro id call o hcall hon hreturn ho
    obtain ⟨hagree, hvalue⟩ := returned_agrees h hcall hon hreturn ho
    obtain ⟨winner, winning, hinvoked, hrequest, hwin⟩ := winner_exists h hvalue
    exact ⟨hagree, winner, winning, _, hinvoked, hrequest, hwin, hagree⟩
  · intro before after id call clocks o htrace hcall hon ho id' call' result hcall' hon' hreturn
    subst htrace
    obtain ⟨u, v, hu, hlegal, hstep, hv⟩ := h.split
    obtain ⟨call₀, hcall₀, _⟩ := returned_path h
    have hsame : call₀ = call := call_unique h (mem_append_left _ hcall₀) hcall
    have hprefix := hu.tail hlegal hstep
    obtain ⟨hagree, hvalue⟩ := returned_agrees hprefix (mem_append_left _ (hsame ▸ hcall₀)) hon
      ⟨clocks, mem_append_right _ (mem_singleton_self _)⟩ ho
    rw [append_cons] at h hreturn
    rw [hagree]
    exact later_call h hv hvalue hcall' hon' hreturn
  · intro id call hcall hkind
    have hbody : ∃ requested, requested ≠ .pending ∧
        body call = (do return .ok (← finish state requested)) := by
      rcases hkind with rfl | rfl
      · exact ⟨.completed, by decide, rfl⟩
      · exact ⟨.cancelledExplicit, by decide, rfl⟩
    obtain ⟨requested, hrequested, hbody⟩ := hbody
    exact ⟨fun _ => finish_terminal h hcall hbody hrequested, finish_returns h hcall hbody,
      can_advance h hcall⟩
  · intro id call hcall hrefused before clocks event after u v htrace _ hstep
    subst htrace
    exact refused_unchanged h hcall hrefused hstep

/-- `cancel` overtakes `complete` between its start and its compare-exchange; an
observation starts after `complete` has returned. -/
def raceBefore : History :=
  [(.invoke (.complete ⟨0⟩), .started 0),
   (.invoke (.cancel ⟨0⟩), .started 1),
   (.advance 1 {}, .acted (.compareExchange 0 .cancelledExplicit) true),
   (.advance 0 {}, .acted (.compareExchange 0 .completed) false),
   (.advance 0 {}, .acted (.load 0) StoredTerminal.cancelledExplicit)]

def raceAfter : History :=
  [(.invoke (.outcome (CancellationSource.token ⟨0⟩)), .started 2),
   (.advance 2 {}, .acted (.load 0) StoredTerminal.cancelledExplicit),
   (.advance 2 {}, .returned (.ok ⟨.cancelled, .explicitRequest⟩))]

def race : History :=
  raceBefore ++ (.advance 0 {}, .returned (.ok ⟨.cancelled, .explicitRequest⟩)) :: raceAfter

def raceReport : Program Answer (Result CancellationOutcome) :=
  do return .ok (← CancellationState.outcome 0)

def raceEnd : State :=
  ⟨fun other => if other = 0 then .cancelledExplicit else .pending,
    [⟨.complete ⟨0⟩, none⟩, ⟨.cancel ⟨0⟩, some raceReport⟩,
      ⟨.outcome (CancellationSource.token ⟨0⟩), none⟩]⟩

theorem race_run : Run machine.system initial race raceEnd :=
  .cons trivial rfl <| .cons trivial rfl <|
  .cons ⟨_, _, rfl, rfl⟩ rfl <| .cons ⟨_, _, rfl, rfl⟩ rfl <| .cons ⟨_, _, rfl, rfl⟩ rfl <|
  .cons ⟨_, _, rfl, rfl⟩ rfl <| .cons trivial rfl <|
  .cons ⟨_, _, rfl, rfl⟩ rfl <| .cons ⟨_, _, rfl, rfl⟩ rfl <| .refl _

/-- The completing thread reports the cancellation that overtook it, and so does
the later observation. -/
theorem cancellation_agreement_race : Run machine.system initial race raceEnd ∧ wins 0 race = 1 ∧
      (∃ winner winning requested, Invokes race winner winning ∧
        winning.request = some (0, requested) ∧
        Performs race winner ⟨.compareExchange 0 requested, true⟩ ∧
        ⟨.cancelled, .explicitRequest⟩ = requested.outcome) ∧
      ∀ result, Returns race 2 result → result = .ok ⟨.cancelled, .explicitRequest⟩ := by
  have hcomplete : Invokes race 0 (.complete ⟨0⟩) := mem_cons_self
  have hreturn : Returns race 0 (.ok ⟨.cancelled, .explicitRequest⟩) :=
    ⟨{}, mem_append_right raceBefore mem_cons_self⟩
  obtain ⟨⟨_, hwins⟩, hagree, hlater, _⟩ := cancellation_agreement race_run 0
  refine ⟨race_run, hwins, (hagree 0 _ _ hcomplete rfl hreturn rfl).2, ?_⟩
  intro result hresult
  exact hlater raceBefore raceAfter 0 _ {} _ rfl hcomplete rfl rfl 2 _ result mem_cons_self rfl
    hresult

end Laghu.Cancellation
