import Laghu.Cancellation

/-!
What one cancellation call does on its own, whatever the other calls do: the
actions on the way to each result, the only value it may try to store, and why a
refusing clock keeps it from storing anything.
-/

namespace Laghu.Cancellation

open Contract AtomicPrograms List Program CancellationState

section Results

variable {state : ℕ} {acts : List (Act Answer)}

variable {o : CancellationOutcome}

theorem outcome_path (h : Path (outcome state) acts (.done o)) :
    ∃ stored : StoredTerminal, acts = [⟨.load state, stored⟩] ∧ o = stored.outcome := by
  obtain ⟨stored, xs, ys, rfl, hload, hdone⟩ := path_bind_done h
  obtain ⟨rfl, ho⟩ := path_done.mp hdone
  cases ho
  exact ⟨stored, by rw [path_perform_done hload]; rfl, rfl⟩

/-- Both branches of `finish` load the state again. -/
theorem finish_path {requested : StoredTerminal}
    (h : Path (finish state requested) acts (.done o)) :
    ∃ (exchanged : Bool) (stored : StoredTerminal),
      acts = [⟨.compareExchange state requested, exchanged⟩, ⟨.load state, stored⟩] ∧
        o = stored.outcome := by
  obtain ⟨exchanged, xs, ys, rfl, hexchange, hload⟩ := path_bind_done h
  have hload : Path (outcome state) ys (.done o) := by
    cases exchanged <;> exact hload
  obtain ⟨stored, rfl, ho⟩ := outcome_path hload
  exact ⟨exchanged, stored, by rw [path_perform_done hexchange]; rfl, ho⟩

variable {p : Program Answer CancellationOutcome}

/-- A call that cannot fail wraps its outcome. -/
theorem ok_path {result : Result CancellationOutcome}
    (h : Path (do return .ok (← p)) acts (.done result)) :
    ∃ o, result = .ok o ∧ Path p acts (.done o) :=
  path_map_done h

theorem ok_path_outcome
    (h : Path (do return (.ok (← p) : Result CancellationOutcome)) acts (.done (.ok o))) :
    Path p acts (.done o) := by
  obtain ⟨o', heq, hp⟩ := ok_path h
  cases heq
  exact hp

theorem expired_path {deadline : Deadline} {expired : Bool}
    (h : Path deadline.expired acts (.done expired)) :
    ∃ now : MonotonicInstant, acts = [⟨.now, now⟩] ∧ expired = decide (deadline.instant ≤ now) := by
  obtain ⟨now, xs, ys, rfl, hnow, hdone⟩ := path_bind_done h
  obtain ⟨rfl, hexp⟩ := path_done.mp hdone
  cases hexp
  exact ⟨now, by rw [path_perform_done hnow]; rfl, rfl⟩

variable {operations : ClockOperations}

theorem readMonotonicClock_path {result : Result MonotonicInstant}
    (h : Path (readMonotonicClock operations) acts (.done result)) :
    (operations.monotonicNow = false ∧ acts = [] ∧
      result = .error (coreError .invalidState "monotonic clock operation is missing")) ∨
    (operations.monotonicNow = true ∧ acts = [⟨.monotonicNow, result⟩]) := by
  unfold readMonotonicClock at h
  cases hfunction : operations.monotonicNow with
  | false =>
    rw [hfunction] at h
    obtain ⟨hacts, hres⟩ := path_done.mp h
    cases hres
    exact .inl ⟨rfl, hacts, rfl⟩
  | true =>
    rw [hfunction] at h
    exact .inr ⟨rfl, path_perform_done h⟩

theorem expiredBy_path {deadline : Deadline} {result : Result Bool}
    (h : Path (deadline.expiredBy operations) acts (.done result)) :
    (operations.monotonicNow = false ∧ acts = [] ∧ ∃ e, result = .error e) ∨
    ∃ reading : Result MonotonicInstant, operations.monotonicNow = true ∧
      acts = [⟨.monotonicNow, reading⟩] ∧
        result = reading.map (fun now => decide (deadline.instant ≤ now)) := by
  obtain ⟨reading, xs, ys, rfl, hread, hdone⟩ := path_bind_done h
  have hres : ys = [] ∧ result = reading.map (fun now => decide (deadline.instant ≤ now)) := by
    cases reading with
    | error e | ok now =>
      obtain ⟨hys, hres⟩ := path_done.mp hdone
      cases hres
      exact ⟨hys, rfl⟩
  rw [hres.1, append_nil]
  rcases readMonotonicClock_path hread with ⟨hmissing, rfl, rfl⟩ | ⟨hpresent, rfl⟩
  · exact .inl ⟨hmissing, rfl, _, hres.2⟩
  · exact .inr ⟨reading, hpresent, rfl, hres.2⟩

end Results

/-- The calls of a source of `state`, and the observations of its token. -/
def Call.On (state : ℕ) : Call → Prop
  | .complete source => source.state = state
  | .cancel source => source.state = state
  | .cancelIfExpired source _ => source.state = state
  | .cancelIfExpiredBy source _ _ => source.state = state
  | .outcome token => token = CancellationSource.token ⟨state⟩

/-- The value a call wants to store, and where. -/
def Call.request : Call → Option (ℕ × StoredTerminal)
  | .complete source => some (source.state, .completed)
  | .cancel source => some (source.state, .cancelledExplicit)
  | .cancelIfExpired source _ => some (source.state, .cancelledDeadline)
  | .cancelIfExpiredBy source _ _ => some (source.state, .cancelledDeadline)
  | .outcome _ => none

variable {call : Call}

theorem Call.request_ne_pending {state : ℕ} {requested : StoredTerminal}
    (h : call.request = some (state, requested)) : requested ≠ .pending := by
  cases call <;> cases h <;> decide

section LastLoad

variable {state : ℕ} {acts : List (Act Answer)} {o : CancellationOutcome}

/-- The last action is a load of `state`, and `o` is what it saw. -/
def EndsInLoad (state : ℕ) (acts : List (Act Answer)) (o : CancellationOutcome) : Prop :=
  ∃ (earlier : List (Act Answer)) (stored : StoredTerminal),
    acts = earlier ++ [⟨.load state, stored⟩] ∧ o = stored.outcome

theorem EndsInLoad.after (h : EndsInLoad state acts o) (earlier : List (Act Answer)) :
    EndsInLoad state (earlier ++ acts) o := by
  obtain ⟨middle, stored, rfl, ho⟩ := h
  exact ⟨earlier ++ middle, stored, by rw [append_assoc], ho⟩

theorem outcome_endsInLoad (h : Path (outcome state) acts (.done o)) :
    EndsInLoad state acts o := by
  obtain ⟨stored, rfl, ho⟩ := outcome_path h
  exact ⟨[], stored, rfl, ho⟩

theorem finish_endsInLoad {requested : StoredTerminal}
    (h : Path (finish state requested) acts (.done o)) :
    EndsInLoad state acts o := by
  obtain ⟨exchanged, stored, rfl, ho⟩ := finish_path h
  exact ⟨[⟨.compareExchange state requested, exchanged⟩], stored, rfl, ho⟩

variable {source : CancellationSource}

theorem cancelIfExpired_endsInLoad {deadline : Deadline}
    (h : Path (source.cancelIfExpired deadline) acts (.done o)) :
    EndsInLoad source.state acts o := by
  obtain ⟨expired, xs, ys, rfl, _, hys⟩ := path_bind_done h
  cases expired with
  | false => exact (outcome_endsInLoad hys).after xs
  | true => exact (finish_endsInLoad hys).after xs

theorem cancelIfExpiredBy_endsInLoad {deadline : Deadline} {operations : ClockOperations}
    (h : Path (source.cancelIfExpiredBy deadline operations) acts (.done (.ok o))) :
    EndsInLoad source.state acts o := by
  obtain ⟨existing, xs, ys, rfl, hxs, hys⟩ := path_bind_done h
  split at hys
  · obtain ⟨rfl, ho⟩ := path_done.mp hys
    cases ho
    rw [append_nil]
    exact outcome_endsInLoad hxs
  obtain ⟨result, clock, rest, rfl, _, hr⟩ := path_bind_done hys
  refine EndsInLoad.after (EndsInLoad.after ?_ clock) xs
  cases result with
  | error e => cases (path_done.mp hr).2
  | ok expired =>
    cases expired with
    | false => exact outcome_endsInLoad (ok_path_outcome hr)
    | true => exact finish_endsInLoad (ok_path_outcome hr)

theorem token_endsInLoad (h : Path (CancellationSource.token ⟨state⟩).outcome acts (.done o)) :
    EndsInLoad state acts o := by
  obtain ⟨own, xs, ys, rfl, hxs, hys⟩ := path_bind_done h
  have hdone : Path (.done own) ys (.done o) := by
    split at hys <;> exact hys
  obtain ⟨rfl, ho⟩ := path_done.mp hdone
  cases ho
  rw [append_nil]
  exact outcome_endsInLoad hxs

/-- Every outcome a call reports is the one it loaded last. -/
theorem body_endsInLoad (hon : call.On state)
    (h : Path (body call) acts (.done (.ok o))) : EndsInLoad state acts o := by
  cases call with
  | complete source | cancel source =>
    cases hon
    exact finish_endsInLoad (ok_path_outcome h)
  | cancelIfExpired source deadline =>
    cases hon
    exact cancelIfExpired_endsInLoad (ok_path_outcome h)
  | cancelIfExpiredBy source deadline operations =>
    cases hon
    exact cancelIfExpiredBy_endsInLoad h
  | outcome token =>
    cases hon
    exact token_endsInLoad (ok_path_outcome h)

/-- Only `cancel_if_expired` with a failing clock has no outcome, and only if it
did not see a terminal one first. -/
theorem body_ok {result : Result CancellationOutcome} (hon : call.On state)
    (h : Path (body call) acts (.done result)) :
    (∃ o, result = .ok o) ∨ ∃ stored : StoredTerminal,
      ⟨.load state, stored⟩ ∈ acts ∧ stored.outcome.isTerminal ≠ true := by
  cases call with
  | cancelIfExpiredBy source deadline operations =>
    cases hon
    obtain ⟨existing, xs, ys, rfl, hxs, hys⟩ := path_bind_done h
    by_cases hterm : existing.isTerminal = true
    · rw [if_pos hterm] at hys
      cases (path_done.mp hys).2
      exact .inl ⟨existing, rfl⟩
    · obtain ⟨stored, rfl, rfl⟩ := outcome_path hxs
      exact .inr ⟨stored, mem_append_left _ (mem_singleton_self _), hterm⟩
  | complete source | cancel source | cancelIfExpired source deadline | outcome token =>
    exact .inl ((ok_path h).imp fun _ ho => ho.1)

end LastLoad

/-- The action stores nothing other than `request`. -/
def Action.Within (request : Option (ℕ × StoredTerminal)) (a : Action) : Prop :=
  ∀ state requested, a = .compareExchange state requested → request = some (state, requested)

theorem Action.Within.of_none {a : Action} (h : a.Within none)
    (request : Option (ℕ × StoredTerminal)) : a.Within request := by
  intro state requested ha
  cases h state requested ha

section Stores

variable (state : ℕ) (deadline : Deadline) (operations : ClockOperations)

theorem load_within : (load state).Only (Action.Within none) :=
  only_perform (fun _ _ h => by cases h)

theorem outcome_within : (outcome state).Only (Action.Within none) :=
  only_bind (load_within state) (fun _ => only_done _)

theorem finish_within (requested : StoredTerminal) :
    (finish state requested).Only (Action.Within (some (state, requested))) := by
  have hload := (outcome_within state).mono fun _ h => h.of_none (some (state, requested))
  apply only_bind
  · apply only_perform
    intro _ _ h
    cases h
    rfl
  · intro exchanged
    cases exchanged <;> exact hload

theorem ok_only {Q : Action → Prop} {p : Program Answer CancellationOutcome} (h : p.Only Q) :
    Only Q (do return (.ok (← p) : Result CancellationOutcome)) :=
  only_bind h (fun _ => only_done _)

theorem expired_within : deadline.expired.Only (Action.Within none) :=
  only_bind (only_perform (fun _ _ h => by cases h)) (fun _ => only_done _)

theorem expiredBy_within : (deadline.expiredBy operations).Only (Action.Within none) := by
  apply only_bind
  · unfold readMonotonicClock
    split
    · exact only_done _
    · exact only_perform (fun _ _ h => by cases h)
  · intro reading
    cases reading <;> exact only_done _

theorem inherited_within (own : CancellationOutcome) (ancestors : List ℕ) :
    (CancellationToken.inherited own ancestors).Only (Action.Within none) := by
  induction ancestors with
  | nil => exact only_done _
  | cons ancestor rest ih =>
    apply only_bind (outcome_within ancestor)
    intro inheritedOutcome
    split
    · exact only_done _
    · exact ih

theorem token_within (token : CancellationToken) : token.outcome.Only (Action.Within none) := by
  apply only_bind (outcome_within token.own)
  intro own
  split
  · exact only_done _
  · exact inherited_within own token.ancestors

theorem cancelIfExpired_within (source : CancellationSource) :
    (source.cancelIfExpired deadline).Only
      (Action.Within (some (source.state, .cancelledDeadline))) := by
  apply only_bind ((expired_within deadline).mono fun _ h => h.of_none _)
  intro expired
  cases expired with
  | false => exact (outcome_within source.state).mono fun _ h => h.of_none _
  | true => exact finish_within source.state .cancelledDeadline

theorem cancelIfExpiredBy_within (source : CancellationSource) :
    (source.cancelIfExpiredBy deadline operations).Only
      (Action.Within (some (source.state, .cancelledDeadline))) := by
  have hload := (outcome_within source.state).mono
    fun _ h => h.of_none (some (source.state, .cancelledDeadline))
  apply only_bind hload
  intro existing
  split
  · exact only_done _
  apply only_bind ((expiredBy_within deadline operations).mono fun _ h => h.of_none _)
  intro result
  cases result with
  | error e => exact only_done _
  | ok expired =>
    cases expired with
    | false => exact ok_only hload
    | true => exact ok_only (finish_within source.state .cancelledDeadline)

end Stores

/-- A call stores nothing but what it requests. -/
theorem body_within (call : Call) : (body call).Only (Action.Within call.request) := by
  cases call with
  | complete source => exact ok_only (finish_within source.state .completed)
  | cancel source => exact ok_only (finish_within source.state .cancelledExplicit)
  | cancelIfExpired source deadline => exact ok_only (cancelIfExpired_within deadline source)
  | cancelIfExpiredBy source deadline operations =>
    exact cancelIfExpiredBy_within deadline operations source
  | outcome token => exact ok_only (token_within token)

theorem outcome_depthLe (state : ℕ) : (outcome state).DepthLe 1 :=
  depthLe_bind (depthLe_perform _) (fun _ => depthLe_done _)

theorem finish_depthLe (state : ℕ) (requested : StoredTerminal) :
    (finish state requested).DepthLe 2 := by
  refine depthLe_bind (m := 1) (n := 1) (depthLe_perform _) ?_
  intro exchanged
  cases exchanged <;> exact outcome_depthLe state

section Refusals

/-- The clock of a `cancel_if_expired` failed or read a time before the deadline. -/
def Call.Refused : Call → List (Act Answer) → Prop
  | .cancelIfExpired _ deadline, acts =>
    ∃ now : MonotonicInstant, ⟨.now, now⟩ ∈ acts ∧ now < deadline.instant
  | .cancelIfExpiredBy _ deadline operations, acts =>
    operations.monotonicNow = false ∨
      ∃ reading : Result MonotonicInstant, ⟨.monotonicNow, reading⟩ ∈ acts ∧
        ∀ now, reading = .ok now → now < deadline.instant
  | _, _ => False

def Action.IsReading : Action → Prop
  | .now => True
  | .monotonicNow => True
  | _ => False

theorem outcome_noReading (state : ℕ) :
    (outcome state).Only (fun a => ¬ a.IsReading) :=
  only_bind (only_perform fun h => h) (fun _ => only_done _)

theorem finish_noReading (state : ℕ) (requested : StoredTerminal) :
    (finish state requested).Only (fun a => ¬ a.IsReading) := by
  refine only_bind (only_perform fun h => h) ?_
  intro exchanged
  cases exchanged <;> exact outcome_noReading state

variable {source : CancellationSource} {deadline : Deadline} {acts : List (Act Answer)}

theorem cancelIfExpired_refused {q : Program Answer CancellationOutcome} {now : MonotonicInstant}
    (h : Path (source.cancelIfExpired deadline) acts q) (hmem : ⟨.now, now⟩ ∈ acts)
    (hnow : now < deadline.instant) : ∀ x ∈ acts, x.1.Within none := by
  rcases path_bind h with ⟨_, hexp, _⟩ | ⟨expired, xs, ys, rfl, hxs, hys⟩
  · exact expired_within deadline _ _ hexp
  refine forall_mem_append.mpr ⟨expired_within deadline _ _ hxs, ?_⟩
  obtain ⟨reading, rfl, rfl⟩ := expired_path hxs
  by_cases hexp : deadline.instant ≤ reading
  · -- the call goes on to finish, so its only reading is the one that expired
    rw [decide_eq_true hexp] at hys
    rcases mem_append.mp hmem with hf | hlater
    · cases mem_singleton.mp hf
      exact absurd hexp (BitVec.not_le.mpr hnow)
    · exact absurd trivial (finish_noReading source.state _ _ _ hys _ hlater)
  · rw [decide_eq_false hexp] at hys
    exact outcome_within source.state _ _ hys

variable {q : Program Answer (Result CancellationOutcome)}

theorem cancelIfExpiredBy_refused {operations : ClockOperations}
    (h : Path (source.cancelIfExpiredBy deadline operations) acts q)
    (href : (Call.cancelIfExpiredBy source deadline operations).Refused acts) :
    ∀ x ∈ acts, x.1.Within none := by
  rcases path_bind h with ⟨_, hload, _⟩ | ⟨existing, xs, ys, rfl, hxs, hys⟩
  · exact outcome_within source.state _ _ hload
  refine forall_mem_append.mpr ⟨outcome_within source.state _ _ hxs, ?_⟩
  split at hys
  · exact only_done _ _ _ hys
  rcases path_bind hys with ⟨_, hclock, _⟩ | ⟨result, clock, rest, rfl, hclock, hr⟩
  · exact expiredBy_within deadline operations _ _ hclock
  refine forall_mem_append.mpr ⟨expiredBy_within deadline operations _ _ hclock, ?_⟩
  cases result with
  | error e => exact only_done _ _ _ hr
  | ok expired =>
    cases expired with
    | false => exact ok_only (outcome_within source.state) _ _ hr
    | true =>
      -- the clock was read once, and it had reached the deadline
      rcases expiredBy_path hclock with ⟨_, _, _, hres⟩ | ⟨reading, hpresent, rfl, hres⟩
      · cases hres
      exfalso
      rcases href with hmissing | ⟨reading', hmem, hreading⟩
      · rw [hpresent] at hmissing
        cases hmissing
      rcases mem_append.mp hmem with hf | hlater
      · exact outcome_noReading source.state _ _ hxs _ hf trivial
      rcases mem_append.mp hlater with hclock' | hr'
      · cases mem_singleton.mp hclock'
        cases reading with
        | error e => cases hres
        | ok now =>
          have hreached : decide (deadline.instant ≤ now) = true := (Except.ok.inj hres).symm
          exact BitVec.not_le.mpr (hreading now rfl) (of_decide_eq_true hreached)
      · exact ok_only (finish_noReading source.state _) _ _ hr _ hr' trivial

/-- A refused call performs no compare-exchange. -/
theorem body_refused (h : Path (body call) acts q) (href : call.Refused acts) :
    ∀ x ∈ acts, x.1.Within none := by
  cases call with
  | complete source | cancel source | outcome token => exact href.elim
  | cancelIfExpired source deadline =>
    obtain ⟨now, hmem, hnow⟩ := href
    rcases path_bind h with ⟨_, hpath, _⟩ | ⟨o, xs, ys, rfl, hpath, hdone⟩
    · exact cancelIfExpired_refused hpath hmem hnow
    · rw [(path_done.mp hdone).1, append_nil] at hmem ⊢
      exact cancelIfExpired_refused hpath hmem hnow
  | cancelIfExpiredBy source deadline operations => exact cancelIfExpiredBy_refused h href

end Refusals

end Laghu.Cancellation
