import Laghu.DependencyLifecycleSteps

/-!
What holds of one process after every call. The phase of its registry says which
hooks were called in it so far, so that the order of the cleanups can be read off
the record of its calls.
-/

namespace Laghu.DependencyLifecycle

open Contract Rollback DependencyLifecycleRegistry List

/-- The calls of hooks that can fail, in order. -/
def acts (log : List HookCall) : List HookCall := log.filter HookCall.isAction

/-- The phase says which hooks of the side the process has called. -/
inductive Accounted (side : Side) (r : DependencyLifecycleRegistry) : List HookCall → Prop
  | before (phase : r.phase = side.before) : Accounted side r []
  | ready (phase : side.IsReady r.phase) : Accounted side r (raised side r.hooks.length)
  | ended (phase : side.IsOver r.phase) (k : ℕ) (failed : List HookCall)
      (reply : ℕ → Result Unit)
      (cause : failed = [] ∨ ∃ e, failed = [.action side.setUp k (.error e)]) :
      Accounted side r (raised side k ++ failed ++ lowered side k reply)

/-- The counters agree with the phase. -/
structure Counted (r : DependencyLifecycleRegistry) : Prop where
  before : ∀ side : Side, r.phase = side.before → r.count side = 0
  ready : ∀ side : Side, side.IsReady r.phase → r.count side = r.hooks.length
  worker : r.phase = .collecting ∨ r.phase = .preflighted → r.workerInitializedCount = 0

/-- The side whose hooks a process can run. -/
def Process.Of (master : ℕ) (p : Process) : Side → Prop
  | .master => p.id = master
  | .worker => p.id ≠ master ∧ p.id = p.registry.workerProcess

structure Sound (master : ℕ) (p : Process) : Prop where
  owner : p.registry.masterProcess = master
  counted : Counted p.registry
  accounted : ∀ side, p.Of master side → Accounted side p.registry (acts p.log)
  unowned : (∀ side, ¬ p.Of master side) → acts p.log = []
  live : p.id ≠ master → ∀ c ∈ p.log, c.isAction = true

section Phases

variable {side : Side} {r : DependencyLifecycleRegistry} {calls : List HookCall}

theorem over_ended (h : side.IsOver r.phase) : r.phase.ended = true := by
  rcases h with h | h | h | h <;> rw [h] <;> cases side <;> rfl

theorem tearDown_over (side : Side) (r : DependencyLifecycleRegistry) (replies : Replies) :
    side.IsOver (tearDown side r replies).registry.phase := by
  obtain ⟨-, -, ⟨hp, -⟩ | ⟨hp, -⟩⟩ := tearDown_cases side r replies
  · exact .inr (.inr (.inl hp))
  · exact .inr (.inr (.inr hp))

theorem Counted.of_ended (h : r.phase.ended = true) : Counted r := by
  refine ⟨fun side hp => ?_, fun side hp => ?_, fun hp => ?_⟩
  · rw [before_not_ended hp] at h
    cases h
  · rw [ready_not_ended hp] at h
    cases h
  · rcases hp with hp | hp <;> rw [hp] at h <;> cases h

theorem before_not_ready (h : r.phase = side.before) : ¬ side.IsReady r.phase := by
  rw [h]
  cases side with
  | master => rintro (h | h) <;> cases h
  | worker => exact fun h => nomatch h

theorem Accounted.eq_nil (h : Accounted side r calls) (hp : r.phase = side.before) :
    calls = [] := by
  cases h with
  | before _ => rfl
  | ready hr => exact absurd hr (before_not_ready hp)
  | ended hover k failed reply cause =>
    have hended := over_ended hover
    rw [before_not_ended hp] at hended
    cases hended

theorem Accounted.eq_raised (h : Accounted side r calls) (hr : side.IsReady r.phase) :
    calls = raised side r.hooks.length := by
  cases h with
  | before hp => exact absurd hr (before_not_ready hp)
  | ready _ => rfl
  | ended hover k failed reply cause =>
    have hended := over_ended hover
    rw [ready_not_ended hr] at hended
    cases hended

end Phases

section Logs

theorem acts_append (log calls : List HookCall) : acts (log ++ calls) = acts log ++ acts calls :=
  filter_append ..

variable {calls : List HookCall}

theorem acts_of_live (h : ∀ c ∈ calls, c.isAction = false) : acts calls = [] := by
  rw [acts, filter_eq_nil_iff]
  intro c hc
  simp [h c hc]

theorem acts_of_actions (h : ∀ c ∈ calls, c.isAction = true) : acts calls = calls :=
  filter_eq_self.mpr h

theorem actions_isAction (stage : Stage) (attempts : Attempts Error) :
    ∀ c ∈ actions stage attempts, c.isAction = true := by
  intro c hc
  obtain ⟨attempt, _, rfl⟩ := mem_map.mp hc
  rfl

theorem isAction_append {log : List HookCall} (h : ∀ c ∈ log, c.isAction = true)
    (h' : ∀ c ∈ calls, c.isAction = true) : ∀ c ∈ log ++ calls, c.isAction = true := by
  intro c hc
  rcases mem_append.mp hc with hc | hc
  · exact h c hc
  · exact h' c hc

theorem isAction_rolledBack (side : Side) (k : ℕ) (e : Error) (reply : ℕ → Result Unit) :
    ∀ c ∈ raised side k ++ [.action side.setUp k (.error e)] ++ lowered side k reply,
      c.isAction = true :=
  isAction_append
    (isAction_append (actions_isAction _ _) (actions_isAction side.setUp [(k, .error e)]))
    (actions_isAction _ _)

end Logs

/-- A process after a call of its registry. -/
def Process.after (p : Process) (r : DependencyLifecycleRegistry) (calls : List HookCall) :
    Process :=
  { p with registry := r, log := p.log ++ calls }

section Steps

variable {master : ℕ} {p : Process} {side : Side} {replies : Replies}
  {a : Returned × DependencyLifecycleRegistry × List HookCall}

theorem of_unique {side' : Side} (h : p.Of master side) (h' : p.Of master side') :
    side' = side := by
  cases side with
  | master =>
    cases side' with
    | master => rfl
    | worker => exact absurd h h'.1
  | worker =>
    cases side' with
    | master => exact absurd h' h.1
    | worker => rfl

theorem Sound.of_own (side : Side) (owner : p.registry.masterProcess = master)
    (counted : Counted p.registry) (own : p.Of master side)
    (accounted : Accounted side p.registry (acts p.log))
    (live : p.id ≠ master → ∀ c ∈ p.log, c.isAction = true) : Sound master p where
  owner := owner
  counted := counted
  accounted := fun _ h => of_unique own h ▸ accounted
  unowned := fun h => absurd own (h side)
  live := live

theorem Sound.of_owns (h : Sound master p) (howns : side.Owns p.id p.registry) :
    p.Of master side := by
  cases side with
  | master => exact howns.2.trans h.owner
  | worker => exact ⟨h.owner ▸ howns.2.1, howns.2.2⟩

/-- A process that is about to bring a side up has called no hook that can fail. -/
theorem Sound.acts_eq_nil (h : Sound master p) (howns : side.Owns p.id (side.claim p.id p.registry))
    (hp : p.registry.phase = side.before) : acts p.log = [] := by
  by_cases hof : ∃ side', p.Of master side'
  · obtain ⟨side', hof⟩ := hof
    have hside : side' = side := by
      cases side with
      | master => exact of_unique (howns.2.trans h.owner) hof
      | worker =>
        cases side' with
        | master => exact absurd (show p.id = master from hof) (h.owner ▸ howns.2.1)
        | worker => rfl
    exact (h.accounted side' hof).eq_nil (hside ▸ hp)
  · exact h.unowned fun side' hside' => hof ⟨side', hside'⟩

theorem counted_ready {r : DependencyLifecycleRegistry} (h : Counted r)
    (hp : r.phase = side.before) :
    Counted { (side.claim p.id r).setCount r.hooks.length side with phase := side.ready } := by
  cases side with
  | master =>
    refine ⟨fun side' hside' => ?_, fun side' hside' => ?_, fun _ => h.worker (.inl hp)⟩
    · cases side' <;> cases hside'
    cases side' with
    | master => rfl
    | worker => cases hside'
  | worker =>
    refine ⟨fun side' hside' => ?_, fun side' hside' => ?_, ?_⟩
    · cases side' <;> cases hside'
    · cases side' with
      | master => rcases hside' with hside' | hside' <;> cases hside'
      | worker => rfl
    · rintro (hside' | hside') <;> cases hside'

theorem Sound.raise (h : Sound master p) (howns : side.Owns p.id (side.claim p.id p.registry))
    (hp : p.registry.phase = side.before) :
    Sound master (p.after (bringUp side (side.claim p.id p.registry) replies).registry
      (bringUp side (side.claim p.id p.registry) replies).calls) := by
  have hnil := h.acts_eq_nil howns hp
  have hk := bringUp_kept side (side.claim p.id p.registry) replies
  have howner := hk.masterProcess.trans ((Side.claim_masterProcess ..).trans h.owner)
  have hof : (p.after (bringUp side (side.claim p.id p.registry) replies).registry
      (bringUp side (side.claim p.id p.registry) replies).calls).Of master side := by
    have ha := howns.kept hk
    cases side with
    | master => exact ha.2.trans howner
    | worker => exact ⟨howner ▸ ha.2.1, ha.2.2⟩
  have hn : (side.claim p.id p.registry).count side = 0 :=
    (Side.claim_count ..).trans (h.counted.before side hp)
  rcases bringUp_cases side (side.claim p.id p.registry) replies hn with
    ⟨hcalls, hregistry⟩ | ⟨k, e, hcalls, hover⟩
  · have hactions : ∀ c ∈ (bringUp side (side.claim p.id p.registry) replies).calls,
        c.isAction = true := hcalls ▸ actions_isAction _ _
    refine .of_own side howner ?_ hof ?_ fun hid => isAction_append (h.live hid) hactions
    · rw [hregistry, Side.claim_hooks]
      exact counted_ready h.counted hp
    have hr : side.IsReady (bringUp side (side.claim p.id p.registry) replies).registry.phase :=
      hregistry ▸ side.isReady_ready
    have haccounted := Accounted.ready hr
    change Accounted side _ (acts (p.log ++ _))
    rwa [acts_append, hnil, nil_append, acts_of_actions hactions, hcalls, ← hk.hooks]
  · have hactions : ∀ c ∈ (bringUp side (side.claim p.id p.registry) replies).calls,
        c.isAction = true := hcalls ▸ isAction_rolledBack _ _ _ _
    refine .of_own side howner (.of_ended (over_ended hover)) hof ?_ fun hid =>
      isAction_append (h.live hid) hactions
    change Accounted side _ (acts (p.log ++ _))
    rw [acts_append, hnil, nil_append, acts_of_actions hactions, hcalls]
    exact .ended hover k _ _ (.inr ⟨e, rfl⟩)

theorem Sound.lower (h : Sound master p) (howns : side.Owns p.id p.registry)
    (hr : side.IsReady p.registry.phase) :
    Sound master (p.after (tearDown side p.registry replies).registry
      (tearDown side p.registry replies).calls) := by
  obtain ⟨hcalls, hk, -⟩ := tearDown_cases side p.registry replies
  have hof := h.of_owns howns
  have hover := tearDown_over side p.registry replies
  have hraised := (h.accounted side hof).eq_raised hr
  have hlowered : ∀ c ∈ (tearDown side p.registry replies).calls, c.isAction = true := by
    rw [hcalls]
    exact actions_isAction _ _
  refine .of_own side (hk.masterProcess.trans h.owner) (.of_ended (over_ended hover)) ?_ ?_
    fun hid => isAction_append (h.live hid) hlowered
  · cases side with
    | master => exact hof
    | worker => exact ⟨hof.1, hof.2.trans hk.workerProcess.symm⟩
  change Accounted side _ (acts (p.log ++ _))
  rw [acts_append, acts_of_actions hlowered, hraised, hcalls, h.counted.ready side hr]
  have hover := Accounted.ended hover p.registry.hooks.length [] (replies.action side.cleanup)
    (.inl rfl)
  rwa [append_nil] at hover

theorem Sound.moves (h : Sound master p) (hmoves : Moves p.id replies p.registry a) :
    Sound master (p.after a.2.1 a.2.2) := by
  cases hmoves with
  | quiet value =>
    rw [Process.after, append_nil]
    exact h
  | register hooks owns phase =>
    have hof := h.of_owns owns
    have hnil := (h.accounted .master hof).eq_nil phase
    rw [Process.after, append_nil]
    refine .of_own .master h.owner ?_ hof ?_ h.live
    · refine ⟨fun side hside => h.counted.before side hside, fun side hside => ?_, h.counted.worker⟩
      cases side with
      | master => exact absurd hside (before_not_ready phase)
      | worker =>
        rw [show p.registry.phase = .workerReady from hside] at phase
        cases phase
    · rw [show acts p.log = [] from hnil]
      exact .before phase
  | read value calls owns ready live =>
    have hof := h.of_owns owns
    refine .of_own .master h.owner h.counted hof ?_ fun hid => absurd hof hid
    change Accounted .master _ (acts (p.log ++ calls))
    rw [acts_append, acts_of_live live, append_nil]
    exact h.accounted .master hof
  | prepare value calls owns phase live returned =>
    have hof := h.of_owns owns
    have hraised := (h.accounted .master hof).eq_raised (.inl phase)
    refine .of_own .master h.owner ?_ hof ?_ fun hid => absurd hof hid
    · refine ⟨fun side hside => ?_, fun side hside => ?_, ?_⟩
      · cases side with
        | master => cases hside
        | worker => exact h.counted.worker (.inr phase)
      · cases side with
        | master => exact h.counted.ready .master (.inl phase)
        | worker => cases hside
      · rintro (hp | hp) <;> cases hp
    · change Accounted .master _ (acts (p.log ++ calls))
      rw [acts_append, acts_of_live live, append_nil, hraised]
      exact .ready (.inr rfl)
  | raise side owns phase => exact h.raise owns phase
  | lower side owns ready => exact h.lower owns ready

end Steps

/-- The slot of a call of the hook `stage`. -/
def HookCall.slotOf (stage : Stage) : HookCall → Option ℕ
  | .action called slot _ => if called = stage then some slot else none
  | .liveState _ _ => none

/-- The same for a call that succeeded. -/
def HookCall.succeededSlot (stage : Stage) : HookCall → Option ℕ
  | .action called slot (.ok _) => if called = stage then some slot else none
  | _ => none

/-- The dependencies whose hook `stage` was called, in order. -/
def slots (stage : Stage) (log : List HookCall) : List ℕ := log.filterMap (HookCall.slotOf stage)

/-- The dependencies whose hook `stage` succeeded, in order. -/
def succeeded (stage : Stage) (log : List HookCall) : List ℕ :=
  log.filterMap (HookCall.succeededSlot stage)

/-- The cleanup hooks are called for exactly the dependencies that were set up,
each once and the last one first, and only after the last set-up. -/
structure CleansInReverse (setUp cleanup : Stage) (log : List HookCall) : Prop where
  reverse : slots cleanup log = [] ∨ slots cleanup log = (succeeded setUp log).reverse
  once : (succeeded setUp log).Nodup
  last : log.Pairwise fun earlier later =>
    (earlier.slotOf cleanup).isSome = true → later.slotOf setUp = none

section Order

variable {side : Side} {stage : Stage} {log calls : List HookCall}

theorem slots_acts (stage : Stage) (log : List HookCall) :
    slots stage (acts log) = slots stage log := by
  rw [slots, acts, filterMap_filter, slots]
  congr 1
  funext c
  cases c <;> rfl

theorem succeeded_acts (stage : Stage) (log : List HookCall) :
    succeeded stage (acts log) = succeeded stage log := by
  rw [succeeded, acts, filterMap_filter, succeeded]
  congr 1
  funext c
  cases c <;> rfl

theorem slots_actions (stage : Stage) (attempts : Attempts Error) :
    slots stage (actions stage attempts) = attempts.map Prod.fst := by
  simp [slots, actions, filterMap_map, Function.comp_def, HookCall.slotOf]

theorem slots_actions_of_ne {called : Stage} (h : called ≠ stage) (attempts : Attempts Error) :
    slots stage (actions called attempts) = [] := by
  simp [slots, actions, HookCall.slotOf, h]

theorem succeeded_of_slots (h : slots stage log = []) : succeeded stage log = [] := by
  rw [slots, filterMap_eq_nil_iff] at h
  rw [succeeded, filterMap_eq_nil_iff]
  intro c hc
  have hslot := h c hc
  cases c with
  | liveState slot state => rfl
  | action called slot result =>
    cases result with
    | error e => rfl
    | ok u => exact hslot

theorem succeeded_raised (side : Side) (k : ℕ) :
    succeeded side.setUp (raised side k) = range k := by
  simp [succeeded, raised, actions, succeeding, filterMap_map, Function.comp_def,
    HookCall.succeededSlot, range_eq_range']

theorem setUp_ne_cleanup (side side' : Side) : side.setUp ≠ side'.cleanup := by
  cases side <;> cases side' <;> exact fun h => nomatch h

variable {cleanup setUp : Stage}

theorem CleansInReverse.of_acts (h : CleansInReverse setUp cleanup (acts log)) :
    CleansInReverse setUp cleanup log where
  reverse := by simpa only [slots_acts, succeeded_acts] using h.reverse
  once := by simpa only [succeeded_acts] using h.once
  last := by
    refine (pairwise_filter.mp h.last).imp fun {earlier later} hl hearlier => ?_
    cases earlier with
    | liveState slot state => cases hearlier
    | action called slot result =>
      cases later with
      | liveState slot' state => rfl
      | action called' slot' result' => exact hl rfl rfl hearlier

/-- A side none of whose hooks was called. -/
theorem CleansInReverse.of_unused (h : slots setUp log = []) (h' : slots cleanup log = []) :
    CleansInReverse setUp cleanup log where
  reverse := .inl h'
  once := by
    rw [succeeded_of_slots h]
    exact nodup_nil
  last := pairwise_of_forall_mem_list fun _ _ later hlater _ =>
    filterMap_eq_nil_iff.mp h later hlater

theorem slots_append (stage : Stage) (log calls : List HookCall) :
    slots stage (log ++ calls) = slots stage log ++ slots stage calls :=
  filterMap_append ..

variable {failed : List HookCall}

theorem slots_cleanup_up (side side' : Side) (k : ℕ)
    (cause : failed = [] ∨ ∃ e, failed = [.action side.setUp k (.error e)]) :
    slots side'.cleanup (raised side k ++ failed) = [] := by
  have hne := setUp_ne_cleanup side side'
  rw [slots_append, raised, slots_actions_of_ne hne, nil_append]
  rcases cause with rfl | ⟨e, rfl⟩
  · rfl
  · exact slots_actions_of_ne hne [(k, .error e)]

theorem slots_setUp_lowered (side side' : Side) (k : ℕ) (reply : ℕ → Result Unit) :
    slots side'.setUp (lowered side k reply) = [] :=
  slots_actions_of_ne (setUp_ne_cleanup side' side).symm _

theorem slots_lowered (side : Side) (k : ℕ) (reply : ℕ → Result Unit) :
    slots side.cleanup (lowered side k reply) = (range k).reverse := by
  rw [lowered, slots_actions, map_map]
  exact map_id _

theorem succeeded_up {k : ℕ}
    (cause : failed = [] ∨ ∃ e, failed = [.action side.setUp k (.error e)]) :
    succeeded side.setUp (raised side k ++ failed) = range k := by
  have hf : succeeded side.setUp failed = [] := by
    rcases cause with rfl | ⟨e, rfl⟩ <;> rfl
  have happend : succeeded side.setUp (raised side k ++ failed) =
      succeeded side.setUp (raised side k) ++ succeeded side.setUp failed :=
    filterMap_append ..
  rw [happend, succeeded_raised, hf, append_nil]

theorem succeeded_ended {k : ℕ} (reply : ℕ → Result Unit)
    (cause : failed = [] ∨ ∃ e, failed = [.action side.setUp k (.error e)]) :
    succeeded side.setUp (raised side k ++ failed ++ lowered side k reply) = range k := by
  rw [succeeded, filterMap_append]
  change succeeded _ _ ++ succeeded _ _ = _
  rw [succeeded_up cause, succeeded_of_slots (slots_setUp_lowered side side k reply), append_nil]

variable {r : DependencyLifecycleRegistry}

/-- Once the phase has ended, every dependency that was set up was cleaned up,
whatever the cleanups before it returned. -/
theorem Accounted.reverse (h : Accounted side r calls) (hended : r.phase.ended = true) :
    slots side.cleanup calls = (succeeded side.setUp calls).reverse := by
  cases h with
  | before hp =>
    rw [before_not_ended hp] at hended
    cases hended
  | ready hr =>
    rw [ready_not_ended hr] at hended
    cases hended
  | ended _ k failed reply cause =>
    rw [slots_append, slots_cleanup_up side side k cause, slots_lowered, nil_append,
      succeeded_ended reply cause]

theorem Accounted.cleansInReverse (h : Accounted side r calls) :
    CleansInReverse side.setUp side.cleanup calls := by
  cases h with
  | before _ => exact .of_unused rfl rfl
  | ready _ =>
    have hn := slots_cleanup_up side side r.hooks.length (.inl rfl)
    rw [append_nil] at hn
    refine ⟨.inl hn, ?_, pairwise_of_forall_mem_list fun c hc _ _ hsome => ?_⟩
    · rw [succeeded_raised]
      exact nodup_range
    · rw [filterMap_eq_nil_iff.mp hn c hc] at hsome
      cases hsome
  | ended hover k failed reply cause =>
    have hup := slots_cleanup_up side side k cause
    have hdown := slots_setUp_lowered side side k reply
    refine ⟨.inr ?_, ?_, pairwise_append.mpr ⟨?_, ?_, ?_⟩⟩
    · exact (Accounted.ended hover k failed reply cause).reverse (over_ended hover)
    · rw [succeeded_ended reply cause]
      exact nodup_range
    · refine pairwise_of_forall_mem_list fun c hc _ _ hsome => ?_
      rw [filterMap_eq_nil_iff.mp hup c hc] at hsome
      cases hsome
    · exact pairwise_of_forall_mem_list fun _ _ later hlater _ =>
        filterMap_eq_nil_iff.mp hdown later hlater
    · exact fun _ _ later hlater _ => filterMap_eq_nil_iff.mp hdown later hlater

/-- The hooks of the other side are never called. -/
theorem Accounted.other_unused {side' : Side} (h : Accounted side r calls) (hne : side' ≠ side) :
    slots side'.setUp calls = [] ∧ slots side'.cleanup calls = [] := by
  have hsetUp : side.setUp ≠ side'.setUp := by
    cases side <;> cases side' <;> first | exact absurd rfl hne | exact fun h => nomatch h
  have hcleanup : side.cleanup ≠ side'.cleanup := by
    cases side <;> cases side' <;> first | exact absurd rfl hne | exact fun h => nomatch h
  cases h with
  | before _ => exact ⟨rfl, rfl⟩
  | ready _ =>
    exact ⟨slots_actions_of_ne hsetUp _, slots_actions_of_ne (setUp_ne_cleanup side side') _⟩
  | ended _ k failed reply cause =>
    constructor
    · rw [slots_append, slots_append, slots_setUp_lowered, raised, slots_actions_of_ne hsetUp]
      rcases cause with rfl | ⟨e, rfl⟩
      · rfl
      · rw [nil_append, append_nil]
        exact slots_actions_of_ne hsetUp [(k, .error e)]
    · rw [slots_append, slots_cleanup_up side side' k cause]
      exact slots_actions_of_ne hcleanup _

end Order

end Laghu.DependencyLifecycle
