import Laghu.DependencyLifecycleRuns

/-!
What the epoch of a worker says about the fork it comes from: a `prepare_fork` of the master
before the fork has returned it. A later `prepare_fork` that fails takes nothing back.
-/

namespace Laghu.DependencyLifecycle

open Contract ObjectTable DependencyLifecycleRegistry Table List Option

variable {master i : ℕ} {w w' : World} {trace : List (Call × Output)} {epoch : BitVec 64}

variable {r : DependencyLifecycleRegistry} {replies : Replies}

/-- A call that does not hand out a new epoch keeps the epoch of the registry. -/
theorem Moves.forkEpoch {process : ℕ}
    {a : Returned × DependencyLifecycleRegistry × List HookCall} (h : Moves process replies r a) :
    a.2.1.forkEpoch = r.forkEpoch ∨ Side.master.Owns process r ∧
      a.1 = .epoch (.ok ⟨r.masterProcess, a.2.1.forkEpoch⟩) := by
  cases h with
  | quiet value | register hooks owns phase | read value calls owns ready live => exact .inl rfl
  | prepare value calls owns phase live returned => exact .inr ⟨owns, returned⟩
  | raise side owns phase =>
    left
    refine (bringUp_forkEpoch ..).trans ?_
    cases side <;> rfl
  | lower side owns ready => exact .inl (tearDown_forkEpoch ..)

/-- The call of the master that returned the epoch, unless there is none yet. -/
def Returns (master : ℕ) (trace : List (Call × Output)) (epoch : BitVec 64) : Prop :=
  epoch ≠ 0#64 → ∃ entry replies calls, (Call.enter 0 entry replies,
    Output.returned (.epoch (.ok ⟨master, epoch⟩)) calls) ∈ trace

/-- The epoch of every registry has been returned. -/
theorem run_returns (run : Runs.Run system (initial master) trace w) :
    ∀ i p, w.get? i = some p → Returns master trace p.registry.forkEpoch := by
  induction run with
  | refl =>
    intro i p hp hne
    rcases get?_push_cases hp with ⟨_, rfl⟩ | hold
    · exact absurd rfl hne
    · cases hold
  | @tail w w' trace call o run legal hstep ih =>
    have hs := run_sound run
    have hold : ∀ i p, w.get? i = some p →
        Returns master (trace ++ [(call, o)]) p.registry.forkEpoch := by
      intro i p hp hne
      obtain ⟨entry, replies, calls, hmem⟩ := ih i p hp hne
      exact ⟨entry, replies, calls, mem_append_left _ hmem⟩
    intro i q hq
    cases call with
    | fork parent id =>
      obtain ⟨p, hp, rfl⟩ := step_fork hstep
      rcases get?_push_cases hq with ⟨_, rfl⟩ | hq
      · exact hold parent p hp
      · exact hold i q hq
    | enter j entry replies =>
      obtain ⟨p, hp, rfl, rfl⟩ := step_enter hstep
      rcases get?_set_cases hq with ⟨rfl, rfl⟩ | ⟨_, hq⟩
      · rcases (enter_moves p.registry p.id replies entry).forkEpoch with hsame | ⟨howns, hv⟩
        · have hpre := hold i p hp
          rwa [← hsame] at hpre
        have howner := (hs.process i p hp).owner
        have h0 : i = 0 := by
          by_contra hne
          exact hs.child i p hp hne (howns.2.trans howner)
        subst h0
        rw [hv, howner]
        exact fun _ => ⟨entry, replies, _, mem_append_right _ (mem_singleton_self _)⟩
      · exact hold i q hq

/-- A child keeps the epoch it was forked with. -/
theorem run_keeps {p : Process} (hs : WorldSound master w) (hp : w.get? i = some p) (hi : i ≠ 0)
    (run : Runs.Run system w trace w') :
    ∃ q, w'.get? i = some q ∧ q.registry.forkEpoch = p.registry.forkEpoch := by
  suffices h : WorldSound master w' ∧ ∃ q, w'.get? i = some q ∧
      q.registry.forkEpoch = p.registry.forkEpoch from h.2
  refine run.invariant (P := fun w => WorldSound master w ∧ ∃ q, w.get? i = some q ∧
    q.registry.forkEpoch = p.registry.forkEpoch) ?_ ⟨hs, p, hp, rfl⟩
  rintro w call o w' ⟨hs, q, hq, hsame⟩ hl hstep
  refine ⟨step_sound hs hl hstep, ?_⟩
  cases call with
  | fork parent id =>
    obtain ⟨_, _, rfl⟩ := step_fork hstep
    exact ⟨q, get?_push_of_some _ hq, hsame⟩
  | enter j entry replies =>
    obtain ⟨r, hr, -, rfl⟩ := step_enter hstep
    by_cases hij : i = j
    · subst hij
      obtain rfl := some.inj (hq.symm.trans hr)
      refine ⟨_, get?_set_self _ hq, ?_⟩
      rcases (enter_moves q.registry q.id replies entry).forkEpoch with hk | ⟨howns, _⟩
      · exact hk.trans hsame
      · have howner := (hs.process i q hq).owner
        exact (hs.child i q hq hi (howns.2.trans howner)).elim
    · exact ⟨q, (get?_set_ne _ _ hij).trans hq, hsame⟩

theorem workerInitialize_epoch {process : ℕ} {epoch : DependencyForkEpoch}
    (h : (r.workerInitialize process epoch replies).result = .ok ()) :
    epoch = ⟨r.masterProcess, r.forkEpoch⟩ ∧ r.forkEpoch ≠ 0#64 := by
  unfold workerInitialize at h
  split_ifs at h with hepoch
  · cases h
  all_goals
    simp only [DependencyForkEpoch.valid, Bool.not_and, Bool.or_eq_true, not_or, not_not] at hepoch
    obtain ⟨⟨_, hv⟩, hm, hsame⟩ := hepoch
    exact ⟨by rw [← hm, ← hsame], by simpa [hsame] using hv⟩

/-- A child of the master that initializes as a worker does so with an epoch that some call of
`prepare_fork` before the fork returned, having found one thread and every dependency
quiescent. A call of `prepare_fork` that fails leaves the registry as it is. -/
theorem worker_epoch_prepared {before : List (Call × Output)}
    (hbefore : Runs.Run system (initial master) before w) :
    (∀ id child w' later w'' epoch replies calls final, legal w (.fork 0 id) →
      step w (.fork 0 id) = some (.forked child, w') → Runs.Run system w' later w'' →
      step w'' (.enter child (.workerInitialize epoch) replies) =
        some (.returned (.status (.ok ())) calls, final) →
      ∃ earlier between threads states read u p,
        before = earlier ++ (.enter 0 (.prepareFork threads) states,
          .returned (.epoch (.ok epoch)) read) :: between ∧
        Runs.Run system (initial master) earlier u ∧ u.get? 0 = some p ∧ threads = 1#32 ∧
        ∀ k < p.registry.hooks.length, (states.liveState k).isQuiescent = true) ∧
    ∀ threads states e read v p, w.get? 0 = some p →
      step w (.enter 0 (.prepareFork threads) states) =
        some (.returned (.epoch (.error e)) read, v) →
      v.get? 0 = some (p.after p.registry read) := by
  have hsound := run_sound hbefore
  constructor
  · intro id child w' later w'' epoch replies calls final hlegal hfork hlater hworker
    obtain ⟨p, hp, hstep⟩ := bind_eq_some_iff.mp hfork
    cases hstep
    have hchild : w.size ≠ 0 := Nat.ne_of_gt (Nat.zero_lt_of_lt (lt_size_of_get? hp))
    obtain ⟨q, hq, hsame⟩ := run_keeps (step_sound hsound hlegal hfork)
      (get?_push_size _ _) hchild hlater
    obtain ⟨q', hq', hreturned, -⟩ := step_enter hworker
    cases some.inj (hq.symm.trans hq')
    injection hreturned with hvalue _
    obtain ⟨hepoch, hne⟩ := workerInitialize_epoch (Returned.status.inj hvalue).symm
    have howner : q.registry.masterProcess = master := by
      have hforked : Runs.Run system w _ _ := .single (i := Call.fork 0 id) hlegal hfork
      exact ((run_sound ((hbefore.append hforked).append hlater)).process _ q hq).owner
    rw [howner, hsame] at hepoch
    obtain ⟨entry, states, read, hmem⟩ := run_returns hbefore 0 p hp (hsame ▸ hne)
    rw [show p.registry.forkEpoch = epoch.value by rw [hepoch],
      show (⟨master, epoch.value⟩ : DependencyForkEpoch) = epoch by rw [hepoch]] at hmem
    obtain ⟨earlier, between, rfl⟩ := append_of_mem hmem
    obtain ⟨u, v, hearlier, _, hprepare, _⟩ := hbefore.split
    obtain ⟨m, hm, hprepared, -⟩ := step_enter hprepare
    injection hprepared with hvalue _
    cases entry with
    | prepareFork threads =>
      obtain ⟨hthreads, hstates⟩ := prepareFork_quiescent _ _ _ (Returned.epoch.inj hvalue).symm
      exact ⟨earlier, between, threads, states, read, u, m, rfl, hearlier, hm, hthreads, hstates⟩
    | _ => cases hvalue
  · intro threads states e read v p hp hstep
    obtain ⟨m, hm, hprepared, rfl⟩ := step_enter hstep
    cases some.inj (hp.symm.trans hm)
    injection hprepared with hvalue hcalls
    rw [get?_set_self _ hp, ← hcalls]
    have hmoves := prepareFork_moves p.registry p.id states threads
    revert hvalue
    generalize enter p.registry p.id states (.prepareFork threads) = a at hmoves
    intro hvalue
    cases hmoves with
    | quiet value => rfl
    | read value calls owns ready live => rfl
    | prepare value calls owns phase live returned =>
      rw [returned] at hvalue
      cases hvalue
    | _ => cases hvalue

/-- The second `prepare_fork` of the master finds two threads. -/
def staleTrace : List (Call × Output) :=
  [(.enter 0 (.registerDependency (sampleHooks .openssl)) {}, .returned (.status (.ok ())) []),
    (.enter 0 .preflight {}, .returned (.status (.ok ())) (raised .master 1)),
    (.enter 0 (.prepareFork 1#32) {}, .returned (.epoch (.ok ⟨100, 1#64⟩)) [.liveState 0 {}]),
    (.enter 0 (.prepareFork 2#32) {}, .returned (.epoch (.error (coreError .invalidState
      "dependency lifecycle fork requires one master thread"))) [])]

theorem staleTrace_run : ∃ w w' final, Runs.Run system (initial 100) staleTrace w ∧
    legal w (.fork 0 101) ∧ step w (.fork 0 101) = some (.forked 1, w') ∧
    step w' (.enter 1 (.workerInitialize ⟨100, 1#64⟩) {}) =
      some (.returned (.status (.ok ())) (raised .worker 1), final) := by
  refine ⟨_, _, _, .cons trivial rfl <| .cons trivial rfl <| .cons trivial rfl <|
    .cons trivial rfl <| .refl _, ⟨by decide, ?_⟩, rfl, rfl⟩
  intro i p hp
  cases i with
  | zero =>
    cases hp
    exact fun h => nomatch h
  | succ i => cases hp

theorem worker_epoch_prepared_once : ∃ w, Runs.Run system (initial 100) staleTrace w ∧
    ∃ threads states read, (Call.enter 0 (.prepareFork threads) states,
      Output.returned (.epoch (.ok ⟨100, 1#64⟩)) read) ∈ staleTrace := by
  obtain ⟨w, w', final, hrun, hlegal, hfork, hworker⟩ := staleTrace_run
  obtain ⟨hprepared, -⟩ := worker_epoch_prepared hrun
  obtain ⟨earlier, between, threads, states, read, _, _, htrace, _⟩ :=
    hprepared 101 1 w' [] w' _ {} _ final hlegal hfork (.refl w') hworker
  exact ⟨w, hrun, threads, states, read, htrace ▸ mem_append_right _ mem_cons_self⟩

/-- The child that is forked after the failure initializes with the epoch of the first call. -/
theorem failed_prepare_revokes_nothing : ∃ w w' final e,
    Runs.Run system (initial 100) (staleTrace.take 3 ++
      [(.enter 0 (.prepareFork 2#32) {}, .returned (.epoch (.error e)) [])]) w ∧
    step w (.fork 0 101) = some (.forked 1, w') ∧
    step w' (.enter 1 (.workerInitialize ⟨100, 1#64⟩) {}) =
      some (.returned (.status (.ok ())) (raised .worker 1), final) := by
  obtain ⟨w, w', final, hrun, _, hfork, hworker⟩ := staleTrace_run
  exact ⟨w, w', final, _, hrun, hfork, hworker⟩

end Laghu.DependencyLifecycle
