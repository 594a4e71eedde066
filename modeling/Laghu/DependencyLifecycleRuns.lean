import Laghu.DependencyLifecycleInvariants

/-!
The master and all its children over whole runs. A child copies the registry of
its parent but owns neither side of it until it initializes as a worker.
-/

namespace Laghu.DependencyLifecycle

open Contract DependencyErrors DependencyLifecycleRegistry Option
open ObjectTable.Table List

/-- The first process is the master, and whoever set up the workers of a registry is
one of the processes. -/
structure WorldSound (master : ℕ) (w : World) : Prop where
  first : ∃ p, w.get? 0 = some p ∧ p.id = master
  child : ∀ i p, w.get? i = some p → i ≠ 0 → p.id ≠ master
  process : ∀ i p, w.get? i = some p → Sound master p
  worker : ∀ i p, w.get? i = some p → p.registry.workerProcess = 0 ∨
    ∃ j q, w.get? j = some q ∧ q.id = p.registry.workerProcess

section Worlds

variable {master : ℕ} {w w' : World}

theorem initial_sound (master : ℕ) : WorldSound master (initial master) := by
  have hget : ∀ i p, (initial master).get? i = some p →
      i = 0 ∧ p = { id := master, registry := { masterProcess := master } } := by
    intro i p h
    rcases get?_push_cases h with ⟨hi, hp⟩ | h
    · exact ⟨hi, hp⟩
    · cases h
  refine ⟨⟨_, rfl, rfl⟩, ?_, ?_, ?_⟩
  · intro i p h hi
    exact absurd (hget i p h).1 hi
  · intro i p h
    obtain ⟨-, rfl⟩ := hget i p h
    refine .of_own .master rfl ?_ rfl (.before rfl) fun hid => absurd rfl hid
    refine ⟨fun side _ => ?_, fun side hside => ?_, fun _ => rfl⟩
    · cases side <;> rfl
    cases side with
    | master => rcases hside with hside | hside <;> cases hside
    | worker => cases hside
  · intro i p h
    obtain ⟨-, rfl⟩ := hget i p h
    exact .inl rfl

variable {replies : Replies} {a : Returned × DependencyLifecycleRegistry × List HookCall}

theorem Moves.workerProcess {process : ℕ} {r : DependencyLifecycleRegistry}
    (h : Moves process replies r a) :
    a.2.1.workerProcess = r.workerProcess ∨ a.2.1.workerProcess = process := by
  cases h with
  | quiet value | register hooks owns phase | read value calls owns ready live
  | prepare value calls owns phase live returned => exact .inl rfl
  | raise side owns phase =>
    have hk := (bringUp_kept side (side.claim process r) replies).workerProcess
    cases side with
    | master => exact .inl hk
    | worker => exact .inr hk
  | lower side owns ready => exact .inl (tearDown_cases side r replies).2.1.workerProcess

variable {i id parent : ℕ} {p : Process}

theorem WorldSound.enter (h : WorldSound master w) (hp : w.get? i = some p)
    (hmoves : Moves p.id replies p.registry a) :
    WorldSound master (w.set i (p.after a.2.1 a.2.2)) := by
  have hids : ∀ j q, w.get? j = some q →
      ∃ q', (w.set i (p.after a.2.1 a.2.2)).get? j = some q' ∧ q'.id = q.id := by
    intro j q hq
    by_cases hj : j = i
    · subst hj
      rw [hp, some.injEq] at hq
      exact ⟨_, get?_set_self _ hp, hq ▸ rfl⟩
    · exact ⟨q, (get?_set_ne _ _ hj).trans hq, rfl⟩
  refine ⟨?_, ?_, ?_, ?_⟩
  · obtain ⟨q, hq, hid⟩ := h.first
    obtain ⟨q', hq', hid'⟩ := hids 0 q hq
    exact ⟨q', hq', hid'.trans hid⟩
  · intro j q hq hj
    rcases get?_set_cases hq with ⟨rfl, rfl⟩ | ⟨_, hq⟩
    · exact h.child _ p hp hj
    · exact h.child j q hq hj
  · intro j q hq
    rcases get?_set_cases hq with ⟨rfl, rfl⟩ | ⟨_, hq⟩
    · exact (h.process _ p hp).moves hmoves
    · exact h.process j q hq
  have hold : ∀ j q, w.get? j = some q → q.registry.workerProcess = 0 ∨
      ∃ k q', (w.set i (p.after a.2.1 a.2.2)).get? k = some q' ∧
        q'.id = q.registry.workerProcess := by
    intro j q hq
    rcases h.worker j q hq with h0 | ⟨k, worker, hk, hid⟩
    · exact .inl h0
    · obtain ⟨worker', hk', hid'⟩ := hids k worker hk
      exact .inr ⟨k, worker', hk', hid'.trans hid⟩
  intro j q hq
  rcases get?_set_cases hq with ⟨rfl, rfl⟩ | ⟨_, hq⟩
  · rcases hmoves.workerProcess with hsame | hself
    · have := hold _ p hp
      rwa [← hsame] at this
    · obtain ⟨p', hp', hid⟩ := hids _ p hp
      exact .inr ⟨_, p', hp', hid.trans hself.symm⟩
  · exact hold j q hq

/-- A new process owns neither side of the registry it copied. -/
theorem WorldSound.fork (h : WorldSound master w) (hp : w.get? parent = some p) (hid : id ≠ 0)
    (hfresh : ∀ i p, w.get? i = some p → p.id ≠ id) :
    WorldSound master (w.push { id := id, registry := p.registry }) := by
  have hm : id ≠ master := by
    obtain ⟨q, hq, hm⟩ := h.first
    exact hm ▸ (hfresh 0 q hq).symm
  have hw : id ≠ p.registry.workerProcess := by
    rcases h.worker parent p hp with h0 | ⟨j, q, hq, hsame⟩
    · exact h0 ▸ hid
    · exact hsame ▸ (hfresh j q hq).symm
  refine ⟨?_, ?_, ?_, ?_⟩
  · obtain ⟨q, hq, hf⟩ := h.first
    exact ⟨q, get?_push_of_some _ hq, hf⟩
  · intro i q hq hi
    rcases get?_push_cases hq with ⟨_, rfl⟩ | hq
    · exact hm
    · exact h.child i q hq hi
  · intro i q hq
    rcases get?_push_cases hq with ⟨_, rfl⟩ | hq
    · have hpar := h.process parent p hp
      refine ⟨hpar.owner, hpar.counted, fun side hside => ?_, fun _ => rfl, ?_⟩
      · cases side with
        | master => exact absurd hside hm
        | worker => exact absurd hside.2 hw
      · exact fun _ c hc => absurd hc not_mem_nil
    · exact h.process i q hq
  intro i q hq
  have hold : ∀ i q, w.get? i = some q → q.registry.workerProcess = 0 ∨
      ∃ j q', (w.push { id := id, registry := p.registry }).get? j = some q' ∧
        q'.id = q.registry.workerProcess := by
    intro i q hq
    rcases h.worker i q hq with h0 | ⟨j, q', hq', hsame⟩
    · exact .inl h0
    · exact .inr ⟨j, q', get?_push_of_some _ hq', hsame⟩
  rcases get?_push_cases hq with ⟨_, rfl⟩ | hq
  · exact hold parent p hp
  · exact hold i q hq

theorem step_of_get? (hp : w.get? i = some p) (entry : Entry) (replies : Replies) :
    step w (.enter i entry replies) =
      some (.returned (DependencyLifecycle.enter p.registry p.id replies entry).1
          (DependencyLifecycle.enter p.registry p.id replies entry).2.2,
        w.set i (p.after (DependencyLifecycle.enter p.registry p.id replies entry).2.1
          (DependencyLifecycle.enter p.registry p.id replies entry).2.2)) := by
  simp only [step, hp]
  rfl

variable {entry : Entry} {value : Returned}

/-- A call that leaves the registry as it is and calls no hook. -/
theorem step_quiet (hp : w.get? i = some p)
    (h : DependencyLifecycle.enter p.registry p.id replies entry = (value, p.registry, [])) :
    step w (.enter i entry replies) = some (.returned value [], w) := by
  have hsame : p.after p.registry [] = p := by
    rw [Process.after, append_nil]
  rw [step_of_get? hp, h]
  rw [hsame, set_get?_self hp]

variable {o : Output}

theorem step_enter (h : step w (.enter i entry replies) = some (o, w')) : ∃ p, w.get? i = some p ∧
      o = .returned (DependencyLifecycle.enter p.registry p.id replies entry).1
        (DependencyLifecycle.enter p.registry p.id replies entry).2.2 ∧
      w' = w.set i (p.after (DependencyLifecycle.enter p.registry p.id replies entry).2.1
        (DependencyLifecycle.enter p.registry p.id replies entry).2.2) := by
  obtain ⟨p, hp, hstep⟩ := bind_eq_some_iff.mp h
  cases hstep
  exact ⟨p, hp, rfl, rfl⟩

theorem step_fork (h : step w (.fork parent id) = some (o, w')) :
    ∃ p, w.get? parent = some p ∧ w' = w.push { id := id, registry := p.registry } := by
  obtain ⟨p, hp, hstep⟩ := bind_eq_some_iff.mp h
  cases hstep
  exact ⟨p, hp, rfl⟩

theorem step_sound {call : Call} (h : WorldSound master w) (hl : legal w call)
    (hstep : step w call = some (o, w')) : WorldSound master w' := by
  cases call with
  | enter i entry replies =>
    obtain ⟨p, hp, -, rfl⟩ := step_enter hstep
    exact h.enter hp (enter_moves p.registry p.id replies entry)
  | fork parent id =>
    obtain ⟨p, hp, rfl⟩ := step_fork hstep
    exact h.fork hp hl.1 hl.2

variable {trace : List (Call × Output)}

theorem run_sound (run : Runs.Run system (initial master) trace w) : WorldSound master w :=
  run.invariant (fun _ _ _ _ h hl hstep => step_sound h hl hstep) (initial_sound master)

/-- A process whose phase has ended is left as it is, and none of its hooks is called. -/
theorem step_frozen {call : Call} (hp : w.get? i = some p)
    (hended : p.registry.phase.ended = true) (hstep : step w call = some (o, w')) :
    w'.get? i = some p ∧
      ∀ entry replies, call = .enter i entry replies → ∃ value, o = .returned value [] := by
  cases call with
  | fork parent id =>
    obtain ⟨q, hq, rfl⟩ := step_fork hstep
    exact ⟨get?_push_of_some _ hp, fun _ _ h => nomatch h⟩
  | enter j entry replies =>
    obtain ⟨q, hq, rfl, rfl⟩ := step_enter hstep
    by_cases hj : j = i
    · subst hj
      rw [hp, some.injEq] at hq
      subst hq
      have hquiet := (enter_moves p.registry p.id replies entry).ended hended
      refine ⟨?_, fun _ _ _ => ⟨_, congrArg (Output.returned _) (congrArg Prod.snd hquiet)⟩⟩
      rw [get?_set_self _ hp, hquiet, Process.after, append_nil]
    · refine ⟨(get?_set_ne _ _ (Ne.symm hj)).trans hp, fun _ _ h => ?_⟩
      cases h
      exact absurd rfl hj

theorem run_frozen (hp : w.get? i = some p) (hended : p.registry.phase.ended = true)
    (run : Runs.Run system w trace w') :
    w'.get? i = some p ∧ ∀ entry replies value calls,
        (Call.enter i entry replies, Output.returned value calls) ∈ trace → calls = [] := by
  refine run.history (P := fun trace w => w.get? i = some p ∧ ∀ entry replies value calls,
    (Call.enter i entry replies, Output.returned value calls) ∈ trace → calls = []) ?_ ⟨hp, ?_⟩
  · rintro trace w call o w' ⟨hp, hquiet⟩ - hstep
    obtain ⟨hp', hc⟩ := step_frozen hp hended hstep
    refine ⟨hp', fun entry replies value calls hmem => ?_⟩
    rcases mem_append.mp hmem with hmem | hmem
    · exact hquiet entry replies value calls hmem
    cases mem_singleton.mp hmem
    obtain ⟨_, hv⟩ := hc entry replies rfl
    cases hv
    rfl
  · intro _ _ _ _ hmem
    cases hmem

variable {calls : List HookCall}

theorem step_reports {e : Error}
    (hstep : step w (.enter i entry replies) = some (.returned value calls, w'))
    (herror : firstCleanupError calls = some e) : value = .status (.error e) := by
  obtain ⟨p, hp, hret, -⟩ := step_enter hstep
  cases hret
  exact (enter_moves p.registry p.id replies entry).reports herror

def Side.cleanupEntry : Side → Entry
  | .master => .masterCleanup
  | .worker => .workerCleanup

theorem enter_cleanup (r : DependencyLifecycleRegistry) (process : ℕ) (replies : Replies)
    (side : Side) : enter r process replies side.cleanupEntry =
      (cleanUp r process replies side).status := by
  cases side <;> rfl

/-- A cleanup that ended the phase, or found it ended, returns the same result in
every later world. -/
theorem cleanup_again (side : Side) {later : World}
    (hstep : step w (.enter i side.cleanupEntry replies) = some (.returned value calls, w'))
    (hp : w'.get? i = some p) (hended : p.registry.phase.ended = true)
    (run : Runs.Run system w' trace later) (replies' : Replies) :
    step later (.enter i side.cleanupEntry replies') = some (.returned value [], later) := by
  have hlater := (run_frozen hp hended run).1
  obtain ⟨q, hq, hret, rfl⟩ := step_enter hstep
  rw [get?_set_self _ hq, some.injEq] at hp
  cases hret
  subst hp
  refine step_quiet hlater ?_
  rw [enter_cleanup, enter_cleanup]
  exact congrArg Answer.status (cleanUp_repeats side replies')

end Worlds

theorem Sound.sides {master : ℕ} {p : Process} (h : Sound master p) :
    (∀ side : Side, CleansInReverse side.setUp side.cleanup p.log) ∧
      ∀ side, ¬ p.Of master side → slots side.setUp p.log = [] ∧ slots side.cleanup p.log = [] := by
  have hunused : ∀ side, ¬ p.Of master side →
      slots side.setUp p.log = [] ∧ slots side.cleanup p.log = [] := by
    intro side hside
    rw [← slots_acts side.setUp, ← slots_acts side.cleanup]
    by_cases hof : ∃ side', p.Of master side'
    · obtain ⟨side', hof⟩ := hof
      exact (h.accounted side' hof).other_unused fun heq => hside (heq ▸ hof)
    · rw [h.unowned fun side' hside' => hof ⟨side', hside'⟩]
      exact ⟨rfl, rfl⟩
  refine ⟨fun side => ?_, hunused⟩
  by_cases hside : p.Of master side
  · exact .of_acts (h.accounted side hside).cleansInReverse
  · obtain ⟨hsetUp, hcleanup⟩ := hunused side hside
    exact .of_unused hsetUp hcleanup

section Cleanups

variable {master : ℕ} {p : Process} {replies : Replies}
  {a : Returned × DependencyLifecycleRegistry × List HookCall}

theorem Sound.reverse (h : Sound master p) (hended : p.registry.phase.ended = true) (side : Side) :
    slots side.cleanup p.log = (succeeded side.setUp p.log).reverse := by
  by_cases hside : p.Of master side
  · rw [← slots_acts, ← succeeded_acts]
    exact (h.accounted side hside).reverse hended
  · obtain ⟨hsetUp, hcleanup⟩ := h.sides.2 side hside
    rw [hcleanup, succeeded_of_slots hsetUp]
    rfl

/-- A call that runs a cleanup hook ends the phase, rolling back or tearing down. -/
theorem Sound.cleanup_ends (h : Sound master p) (hmoves : Moves p.id replies p.registry a)
    {side : Side} (hran : slots side.cleanup a.2.2 ≠ []) : a.2.1.phase.ended = true := by
  cases hmoves with
  | quiet value | register hooks owns phase => exact absurd rfl hran
  | read value calls owns ready live | prepare value calls owns phase live returned =>
    rw [← slots_acts, acts_of_live live] at hran
    exact absurd rfl hran
  | raise side' owns phase =>
    have hn := (Side.claim_count p.id p.registry side').trans (h.counted.before side' phase)
    rcases bringUp_cases side' _ replies hn with ⟨hcalls, -⟩ | ⟨k, e, -, hover⟩
    · change slots side.cleanup (bringUp side' _ replies).calls ≠ [] at hran
      rw [hcalls] at hran
      exact absurd (slots_actions_of_ne (setUp_ne_cleanup side' side) _) hran
    · exact over_ended hover
  | lower side' owns ready => exact over_ended (tearDown_over side' p.registry replies)

/-- When a call cleans up: a cleanup hook runs, or the owner of a side that is ready
asks for its cleanup. -/
def CleansUp (p : Process) (entry : Entry) (calls : List HookCall) : Prop :=
  ∃ side : Side, slots side.cleanup calls ≠ [] ∨
    entry = side.cleanupEntry ∧ side.Owns p.id p.registry ∧ side.IsReady p.registry.phase

theorem Sound.cleansUp_ends {entry : Entry} (h : Sound master p)
    (hcleans : CleansUp p entry (enter p.registry p.id replies entry).2.2) :
    (enter p.registry p.id replies entry).2.1.phase.ended = true := by
  obtain ⟨side, hran | ⟨rfl, howns, hr⟩⟩ := hcleans
  · exact h.cleanup_ends (enter_moves p.registry p.id replies entry) hran
  · rw [enter_cleanup, cleanUp_of_ready howns hr]
    exact over_ended (tearDown_over side p.registry replies)

end Cleanups

/-- In every process of every run, cleanups are the exact reverse of the set-ups
that succeeded there. A call that cleans up ends the phase, and in a phase that has
ended every set-up that succeeded was cleaned up, whichever cleanups failed; the first
cleanup error is reported. Such a phase, cleaned, rolled back or failed, is final: no
hook is called any more and cleaning up again returns the same result. Worker hooks
run only in children, the others only in the master, which is process 0. -/
theorem dependency_lifecycle_sound (master : ℕ) {trace : List (Call × Output)} {w : World}
    (run : Runs.Run system (initial master) trace w) :
    (∀ i p, w.get? i = some p → CleansInReverse .preflight .masterCleanup p.log ∧
      CleansInReverse .workerInitialize .workerCleanup p.log ∧
      (p.registry.phase.ended = true →
        slots .masterCleanup p.log = (succeeded .preflight p.log).reverse ∧
        slots .workerCleanup p.log = (succeeded .workerInitialize p.log).reverse) ∧
      (i = 0 → slots .workerInitialize p.log = [] ∧ slots .workerCleanup p.log = []) ∧
      (i ≠ 0 → slots .preflight p.log = [] ∧ slots .masterCleanup p.log = [])) ∧
    (∀ i p entry replies value calls w', w.get? i = some p →
      step w (.enter i entry replies) = some (.returned value calls, w') →
      CleansUp p entry calls → ∃ p', w'.get? i = some p' ∧ p'.registry.phase.ended = true) ∧
    (∀ i entry replies value calls e,
      (Call.enter i entry replies, Output.returned value calls) ∈ trace →
      firstCleanupError calls = some e → value = .status (.error e)) ∧
    (∀ i p after w', w.get? i = some p → p.registry.phase.ended = true →
      Runs.Run system w after w' →
      w'.get? i = some p ∧ ∀ entry replies value calls,
        (Call.enter i entry replies, Output.returned value calls) ∈ after → calls = []) ∧
    (∀ i entry replies value calls w' p after later replies',
      entry = .workerCleanup ∨ entry = .masterCleanup →
      step w (.enter i entry replies) = some (.returned value calls, w') →
      w'.get? i = some p → p.registry.phase.ended = true → Runs.Run system w' after later →
      step later (.enter i entry replies') = some (.returned value [], later)) := by
  have hsound := run_sound run
  refine ⟨?_, ?_, ?_, ?_, ?_⟩
  · intro i p hp
    have hprocess := hsound.process i p hp
    obtain ⟨hreverse, hunused⟩ := hprocess.sides
    refine ⟨hreverse .master, hreverse .worker, fun hended => ?_, ?_, ?_⟩
    · exact ⟨hprocess.reverse hended .master, hprocess.reverse hended .worker⟩
    · rintro rfl
      obtain ⟨first, hfirst, hid⟩ := hsound.first
      rw [hp, some.injEq] at hfirst
      subst hfirst
      exact hunused .worker fun hof => hof.1 hid
    · intro hi
      exact hunused .master (hsound.child i p hp hi)
  · intro i p entry replies value calls w' hp hstep hcleans
    rw [step_of_get? hp] at hstep
    cases hstep
    exact ⟨_, get?_set_self _ hp, (hsound.process i p hp).cleansUp_ends hcleans⟩
  · intro i entry replies value calls e hmem herror
    obtain ⟨before, after, rfl⟩ := List.append_of_mem hmem
    obtain ⟨_, _, _, _, hstep, _⟩ := run.split
    exact step_reports hstep herror
  · intro i p after w' hp hended hafter
    exact run_frozen hp hended hafter
  intro i entry replies value calls w' p after later replies' hentry hstep hp hended hafter
  rcases hentry with rfl | rfl
  · exact cleanup_again .worker hstep hp hended hafter replies'
  · exact cleanup_again .master hstep hp hended hafter replies'

def sampleHooks (dependency : DependencyId) : DependencyLifecycleHooks where
  dependency := dependency
  action := fun _ => true
  liveState := true

/-- The cleanup of the second dependency fails in the worker. -/
def failingReplies : Replies where
  action := fun stage slot => match stage, slot with
    | .workerCleanup, 1 => .error (coreError .io "cleanup hook failed")
    | _, _ => .ok ()

/-- Two dependencies are registered; the worker that process 0 forks initializes both
and cleans up both, although the first cleanup fails. -/
def cleanupTrace : List (Call × Output) :=
  [(.enter 0 (.registerDependency (sampleHooks .openssl)) {}, .returned (.status (.ok ())) []),
    (.enter 0 (.registerDependency (sampleHooks .zstd)) {}, .returned (.status (.ok ())) []),
    (.enter 0 .preflight {}, .returned (.status (.ok ())) (raised .master 2)),
    (.enter 0 (.prepareFork 1#32) {},
      .returned (.epoch (.ok ⟨100, 1#64⟩)) [.liveState 0 {}, .liveState 1 {}]),
    (.fork 0 101, .forked 1),
    (.enter 1 (.workerInitialize ⟨100, 1#64⟩) {},
      .returned (.status (.ok ())) (raised .worker 2)),
    (.enter 1 .workerCleanup failingReplies,
      .returned (.status (.error (coreError .io "cleanup hook failed")))
        [.action .workerCleanup 1 (.error (coreError .io "cleanup hook failed")),
          .action .workerCleanup 0 (.ok ())])]

theorem cleanupTrace_run : ∃ w, Runs.Run system (initial 100) cleanupTrace w ∧
    ∃ p, w.get? 1 = some p ∧ p.registry.phase = .workerCleanupFailed ∧
      succeeded .workerInitialize p.log = [0, 1] ∧ step w (.enter 1 .workerCleanup {}) =
        some (.returned (.status (.error (coreError .io "cleanup hook failed"))) [], w) := by
  refine ⟨_, .cons trivial rfl <| .cons trivial rfl <| .cons trivial rfl <| .cons trivial rfl <|
    .cons ⟨by decide, ?_⟩ rfl <| .cons trivial rfl <| .cons trivial rfl <| .refl _,
    _, rfl, rfl, rfl, rfl⟩
  intro i p hp
  cases i with
  | zero =>
    cases hp
    exact fun h => nomatch h
  | succ i => cases hp

theorem dependency_lifecycle_sound_cleanup :
    ∃ w p, Runs.Run system (initial 100) cleanupTrace w ∧ w.get? 1 = some p ∧
      p.registry.phase = .workerCleanupFailed ∧ slots .workerCleanup p.log = [1, 0] ∧
      ∀ after later replies, Runs.Run system w after later →
        step later (.enter 1 .workerCleanup replies) =
          some (.returned (.status (.error (coreError .io "cleanup hook failed"))) [], later) := by
  obtain ⟨w, run, p, hp, hphase, hset, hfailure⟩ := cleanupTrace_run
  obtain ⟨hreverse, -, -, -, hagain⟩ := dependency_lifecycle_sound 100 run
  have hended : p.registry.phase.ended = true := hphase ▸ rfl
  refine ⟨w, p, run, hp, hphase, ?_, fun after later replies hafter => ?_⟩
  · rw [((hreverse 1 p hp).2.2.1 hended).2, hset]
    rfl
  exact hagain 1 .workerCleanup {} _ _ w p after later replies (.inl rfl) hfailure hp hended hafter

end Laghu.DependencyLifecycle
