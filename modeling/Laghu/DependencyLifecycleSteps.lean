import Laghu.DependencyLifecycle

/-!
What one call of the registry can do: nothing, register hooks, read the live
states, bring one side up or tear it down. Whatever it returns, the hooks it calls
follow from that.
-/

namespace Laghu.DependencyLifecycle

open Contract Rollback DependencyLifecycleRegistry List Option

/-- Cleaned, rolled back or failed. -/
def DependencyLifecyclePhase.ended : DependencyLifecyclePhase → Bool
  | .collecting | .preflighted | .forkReady | .workerReady => false
  | _ => true

namespace Side

/-- The phase from which the side is brought up. -/
def before : Side → DependencyLifecyclePhase
  | .master => .collecting
  | .worker => .forkReady

def IsReady : Side → DependencyLifecyclePhase → Prop
  | .master, phase => phase = .preflighted ∨ phase = .forkReady
  | .worker, phase => phase = .workerReady

/-- The phases that follow once the side was rolled back or torn down. -/
def IsOver (side : Side) (phase : DependencyLifecyclePhase) : Prop :=
  phase = side.rolledBack ∨ phase = side.rollbackFailed ∨ phase = side.cleaned ∨
    phase = side.cleanupFailed

/-- Whether the process may run the hooks of the side. -/
def Owns (process : ℕ) (r : DependencyLifecycleRegistry) : Side → Prop
  | .master => process ≠ 0 ∧ process = r.masterProcess
  | .worker => process ≠ 0 ∧ process ≠ r.masterProcess ∧ process = r.workerProcess

/-- `worker_initialize` records the process that runs it. -/
def claim (process : ℕ) (r : DependencyLifecycleRegistry) : Side → DependencyLifecycleRegistry
  | .master => r
  | .worker => { r with workerProcess := process }

@[simp] theorem claim_masterProcess (process : ℕ) (r : DependencyLifecycleRegistry) (side : Side) :
    (side.claim process r).masterProcess = r.masterProcess := by
  cases side <;> rfl

@[simp] theorem claim_hooks (process : ℕ) (r : DependencyLifecycleRegistry) (side : Side) :
    (side.claim process r).hooks = r.hooks := by
  cases side <;> rfl

@[simp] theorem claim_count (process : ℕ) (r : DependencyLifecycleRegistry) (side : Side) :
    (side.claim process r).count side = r.count side := by
  cases side <;> rfl

theorem isReady_ready (side : Side) : side.IsReady side.ready := by
  cases side with
  | master => exact .inl rfl
  | worker => rfl

end Side

/-- The call of a hook that can fail, not the reading of a live state. -/
def HookCall.isAction : HookCall → Bool
  | .action _ _ _ => true
  | .liveState _ _ => false

/-- Every way in which a call can return, change the registry and call hooks. -/
inductive Moves (process : ℕ) (replies : Replies) (r : DependencyLifecycleRegistry) :
    Returned × DependencyLifecycleRegistry × List HookCall → Prop
  | quiet (value : Returned) : Moves process replies r (value, r, [])
  | register (hooks : DependencyLifecycleHooks) (owns : Side.master.Owns process r)
      (phase : r.phase = .collecting) :
      Moves process replies r (.status (.ok ()), { r with hooks := r.hooks ++ [hooks] }, [])
  | read (value : Returned) (calls : List HookCall) (owns : Side.master.Owns process r)
      (ready : Side.master.IsReady r.phase) (live : ∀ c ∈ calls, c.isAction = false) :
      Moves process replies r (value, r, calls)
  | prepare (value : Returned) (calls : List HookCall) (owns : Side.master.Owns process r)
      (phase : r.phase = .preflighted) (live : ∀ c ∈ calls, c.isAction = false)
      (returned : value = .epoch (.ok ⟨r.masterProcess, r.forkEpoch + 1#64⟩)) :
      Moves process replies r
        (value, { r with forkEpoch := r.forkEpoch + 1#64, phase := .forkReady }, calls)
  | raise (side : Side) (owns : side.Owns process (side.claim process r))
      (phase : r.phase = side.before) :
      Moves process replies r (bringUp side (side.claim process r) replies).status
  | lower (side : Side) (owns : side.Owns process r) (ready : side.IsReady r.phase) :
      Moves process replies r (tearDown side r replies).status

section Entries

variable (r : DependencyLifecycleRegistry) (process : ℕ) (replies : Replies)

theorem owns_of_isMasterProcess (h : ¬ (!r.isMasterProcess process) = true) :
    Side.master.Owns process r := by
  simp only [isMasterProcess, ne_eq, decide_not, Bool.not_and, Bool.not_not, Bool.or_eq_true,
    decide_eq_true_eq, Bool.not_eq_true', decide_eq_false_iff_not, not_or, not_not] at h
  exact ⟨h.2 ▸ h.1, h.2⟩

theorem registerDependency_moves (hooks : DependencyLifecycleHooks) :
    Moves process replies r (r.registerDependency process hooks).status := by
  unfold registerDependency
  cases conflict hooks.dependency r.hooks with
  | some diagnostic => split_ifs <;> exact .quiet _
  | none =>
    split_ifs with hm hp
    iterate 4 · exact .quiet _
    · exact .register hooks (owns_of_isMasterProcess r process hm) (not_not.mp hp)

theorem preflight_moves : Moves process replies r (r.preflight process replies).status := by
  unfold preflight
  split_ifs with hm _ _ hp
  iterate 4 · exact .quiet _
  · exact .raise .master (owns_of_isMasterProcess r process hm) (not_not.mp hp)

theorem readLiveStates_live (remaining index : ℕ) :
    ∀ c ∈ (readLiveStates replies remaining index).1, c.isAction = false := by
  induction remaining generalizing index with
  | zero => simp [readLiveStates]
  | succ remaining ih =>
    unfold readLiveStates
    dsimp only
    split_ifs
    · simp [HookCall.isAction]
    · simpa [HookCall.isAction] using ih (index + 1)

theorem readLiveStates_quiescent {remaining index : ℕ}
    (h : (readLiveStates replies remaining index).2 = true) {k : ℕ} (hk : k < remaining) :
    (replies.liveState (index + k)).isQuiescent = true := by
  induction remaining generalizing index k with
  | zero => omega
  | succ remaining ih =>
    unfold readLiveStates at h
    dsimp only at h
    split_ifs at h with hst
    cases k with
    | zero => simpa using hst
    | succ k =>
      have hr := ih h (k := k) (by omega)
      rwa [Nat.add_right_comm] at hr

/-- `prepare_fork` succeeds only with one thread and quiescent states. -/
theorem prepareFork_quiescent {threads : BitVec 32} {epoch : DependencyForkEpoch}
    (h : (r.prepareFork process threads replies).result = .ok epoch) :
    threads = 1#32 ∧ ∀ k < r.hooks.length, (replies.liveState k).isQuiescent = true := by
  have hquiet : (readLiveStates replies r.hooks.length 0).2 = true →
      ∀ k < r.hooks.length, (replies.liveState k).isQuiescent = true := by
    intro hread k hk
    have hst := readLiveStates_quiescent replies hread hk
    rwa [zero_add] at hst
  unfold prepareFork persistentFailure at h
  dsimp only at h
  split_ifs at h with _ _ _ _ hthreads hread
  all_goals cases h
  all_goals exact ⟨not_not.mp hthreads, hquiet (by simpa using hread)⟩

theorem prepareFork_moves (threads : BitVec 32) :
    Moves process replies r (enter r process replies (.prepareFork threads)) := by
  have hl := readLiveStates_live replies r.hooks.length 0
  unfold enter prepareFork
  dsimp only
  split
  · exact .quiet _
  rename_i hm
  have howns := owns_of_isMasterProcess r process hm
  by_cases hp : r.phase ≠ .preflighted ∧ r.phase ≠ .forkReady
  · rw [if_pos hp]
    split_ifs <;> exact .quiet _
  rw [if_neg hp]
  have hr : Side.master.IsReady r.phase := by
    by_contra hnot
    exact hp (not_or.mp hnot)
  split_ifs with _ _ _ hfork
  · exact .quiet _
  · exact .quiet _
  iterate 3 · exact .read _ _ howns hr hl
  · exact .prepare _ _ howns (hr.resolve_right hfork) hl rfl

theorem workerInitialize_moves (epoch : DependencyForkEpoch) :
    Moves process replies r (r.workerInitialize process epoch replies).status := by
  unfold workerInitialize
  split_ifs with _ hproc _ _ hp
  iterate 5 · exact .quiet _
  · obtain ⟨h0, hm⟩ := not_or.mp hproc
    exact .raise .worker ⟨h0, hm, rfl⟩ (not_not.mp hp)

/-- `master_cleanup` or `worker_cleanup`. -/
def cleanUp (side : Side) : Answer Unit :=
  match side with
  | .master => r.masterCleanup process replies
  | .worker => r.workerCleanup process replies

theorem cleanUp_cases (side : Side) :
    (∃ result, ∀ replies, cleanUp r process replies side = ⟨result, r, []⟩) ∨
      side.Owns process r ∧ side.IsReady r.phase ∧
        ∀ replies, cleanUp r process replies side = tearDown side r replies := by
  cases side with
  | master =>
    unfold cleanUp masterCleanup
    split_ifs with hm _ _ hp
    iterate 4 · exact .inl ⟨_, fun _ => rfl⟩
    refine .inr ⟨owns_of_isMasterProcess r process hm, ?_, fun _ => rfl⟩
    by_contra hnot
    exact hp (not_or.mp hnot)
  | worker =>
    unfold cleanUp workerCleanup
    split_ifs with hproc _ _ hp
    iterate 4 · exact .inl ⟨_, fun _ => rfl⟩
    · simp only [not_or, not_not] at hproc
      exact .inr ⟨hproc, not_not.mp hp, fun _ => rfl⟩

theorem cleanUp_moves (side : Side) :
    Moves process replies r (cleanUp r process replies side).status := by
  rcases cleanUp_cases r process side with ⟨result, h⟩ | ⟨howns, hr, h⟩
  · rw [h]
    exact .quiet _
  · rw [h]
    exact .lower side howns hr

theorem enter_moves (entry : Entry) : Moves process replies r (enter r process replies entry) := by
  cases entry with
  | registerDependency hooks => exact registerDependency_moves r process replies hooks
  | preflight => exact preflight_moves r process replies
  | prepareFork threads => exact prepareFork_moves r process replies threads
  | workerInitialize epoch => exact workerInitialize_moves r process replies epoch
  | workerCleanup => exact cleanUp_moves r process replies .worker
  | masterCleanup => exact cleanUp_moves r process replies .master

end Entries

/-- Every set-up hook below `k` was called in order and succeeded. -/
def raised (side : Side) (k : ℕ) : List HookCall := actions side.setUp (succeeding 0 k)

/-- Every cleanup hook below `k` was called, the last one first. -/
def lowered (side : Side) (k : ℕ) (reply : ℕ → Result Unit) : List HookCall :=
  actions side.cleanup ((List.range k).reverse.map fun i => (i, reply i))

/-- Bringing a side up or tearing it down leaves the rest of the registry alone. -/
structure Kept (r r' : DependencyLifecycleRegistry) : Prop where
  hooks : r'.hooks = r.hooks
  masterProcess : r'.masterProcess = r.masterProcess
  workerProcess : r'.workerProcess = r.workerProcess

section Loops

variable (side : Side) (r : DependencyLifecycleRegistry) (replies : Replies)

theorem setCount_kept (count : ℕ) : Kept r (r.setCount count side) := by
  cases side <;> exact ⟨rfl, rfl, rfl⟩

theorem bringUp_cases (hn : r.count side = 0) :
    (bringUp side r replies).calls = raised side r.hooks.length ∧
        (bringUp side r replies).registry =
          { r.setCount r.hooks.length side with phase := side.ready } ∨
      ∃ k e, (bringUp side r replies).calls = raised side k ++ [.action side.setUp k (.error e)] ++
            lowered side k (replies.action side.cleanup) ∧
        side.IsOver (bringUp side r replies).registry.phase := by
  unfold bringUp
  rw [hn]
  rcases climb_cases (replies.action side.setUp) r.hooks.length 0 0 with h | ⟨k, e, -, h⟩
  · rw [h, zero_add]
    exact .inl ⟨rfl, rfl⟩
  refine .inr ⟨k, e, ?_⟩
  have hundone := unwind_attempts (replies.action side.cleanup) k none
  rw [h, zero_add]
  dsimp only
  rcases hunwind : unwind (replies.action side.cleanup) k none with ⟨undone, none | first⟩
  · rw [hunwind] at hundone
    exact ⟨by simp [raised, lowered, actions, ← hundone], .inl rfl⟩
  · rw [hunwind] at hundone
    exact ⟨by simp [raised, lowered, actions, ← hundone], .inr (.inl rfl)⟩

theorem bringUp_kept : Kept r (bringUp side r replies).registry := by
  unfold bringUp
  rcases climb (replies.action side.setUp) r.hooks.length 0 (r.count side) with
    ⟨attempts, count, none | e⟩
  · obtain ⟨hhooks, hm, hw⟩ := setCount_kept side r count
    exact ⟨hhooks, hm, hw⟩
  obtain ⟨hhooks, hm, hw⟩ := setCount_kept side r 0
  dsimp only
  rcases unwind (replies.action side.cleanup) count none with ⟨undone, none | first⟩
  · exact ⟨hhooks, hm, hw⟩
  · exact ⟨hhooks, hm, hw⟩

theorem bringUp_forkEpoch : (bringUp side r replies).registry.forkEpoch = r.forkEpoch := by
  have hset : ∀ count, (r.setCount count side).forkEpoch = r.forkEpoch := by
    intro count
    cases side <;> rfl
  unfold bringUp
  rcases climb (replies.action side.setUp) r.hooks.length 0 (r.count side) with
    ⟨attempts, count, none | e⟩
  · exact hset count
  dsimp only
  rcases unwind (replies.action side.cleanup) count none with ⟨undone, none | first⟩
  · exact hset 0
  · exact hset 0

theorem tearDown_forkEpoch : (tearDown side r replies).registry.forkEpoch = r.forkEpoch := by
  unfold tearDown
  rcases unwind (replies.action side.cleanup) (r.count side) none with ⟨undone, none | first⟩ <;>
    cases side <;> rfl

theorem tearDown_cases : (tearDown side r replies).calls =
        lowered side (r.count side) (replies.action side.cleanup) ∧
      Kept r (tearDown side r replies).registry ∧
      ((tearDown side r replies).registry.phase = side.cleaned ∧
          (tearDown side r replies).result = .ok () ∨
        (tearDown side r replies).registry.phase = side.cleanupFailed ∧
          (tearDown side r replies).result =
            (tearDown side r replies).registry.persistentFailure) := by
  obtain ⟨hhooks, hm, hw⟩ := setCount_kept side r 0
  have hundone := unwind_attempts (replies.action side.cleanup) (r.count side) none
  unfold tearDown
  rcases hunwind : unwind (replies.action side.cleanup) (r.count side) none with
    ⟨undone, none | first⟩
  · rw [hunwind] at hundone
    exact ⟨by simp [lowered, ← hundone], ⟨hhooks, hm, hw⟩, .inl ⟨rfl, rfl⟩⟩
  · rw [hunwind] at hundone
    exact ⟨by simp [lowered, ← hundone], ⟨hhooks, hm, hw⟩, .inr ⟨rfl, rfl⟩⟩

end Loops

/-- The error of the first cleanup hook among the calls that failed. -/
def firstCleanupError (calls : List HookCall) : Option Error :=
  calls.findSome? fun call => match call with
    | .action .workerCleanup _ (.error e) => some e
    | .action .masterCleanup _ (.error e) => some e
    | _ => none

section Reports

variable {side : Side} {r : DependencyLifecycleRegistry} {replies : Replies} {e : Error}

theorem firstCleanupError_setUp (side : Side) (attempts : Attempts Error) :
    firstCleanupError (actions side.setUp attempts) = none := by
  rw [firstCleanupError, findSome?_eq_none_iff]
  intro call hc
  obtain ⟨attempt, _, rfl⟩ := List.mem_map.mp hc
  cases side <;> rfl

theorem firstCleanupError_cleanup (side : Side) (attempts : Attempts Error) :
    firstCleanupError (actions side.cleanup attempts) = firstError attempts := by
  rw [firstCleanupError, actions, firstError, findSome?_map]
  congr 1
  funext attempt
  obtain ⟨slot, result⟩ := attempt
  cases side <;> cases result <;> rfl

theorem firstCleanupError_append (calls calls' : List HookCall) :
    firstCleanupError (calls ++ calls') = (firstCleanupError calls).or (firstCleanupError calls') :=
  findSome?_append

theorem unwind_error (side : Side) (undo : ℕ → Result Unit) (count : ℕ) :
    (unwind undo count none).2 =
      firstCleanupError (actions side.cleanup (unwind undo count none).1) := by
  rw [firstCleanupError_cleanup, unwind_first, none_or]

theorem bringUp_reports (h : firstCleanupError (bringUp side r replies).calls = some e) :
    (bringUp side r replies).result = .error e := by
  revert h
  unfold bringUp
  rcases climb (replies.action side.setUp) r.hooks.length 0 (r.count side) with
    ⟨attempts, count, none | cause⟩
  · intro h
    rw [firstCleanupError_setUp] at h
    cases h
  have hf := unwind_error side (replies.action side.cleanup) count
  revert hf
  dsimp only
  rcases unwind (replies.action side.cleanup) count none with ⟨undone, none | first⟩
  · intro hf h
    rw [firstCleanupError_append, firstCleanupError_setUp, none_or, ← hf] at h
    cases h
  intro hf h
  rw [firstCleanupError_append, firstCleanupError_setUp, none_or, ← hf] at h
  cases h
  rfl

theorem tearDown_reports (h : firstCleanupError (tearDown side r replies).calls = some e) :
    (tearDown side r replies).result = .error e := by
  have hf := unwind_error side (replies.action side.cleanup) (r.count side)
  revert h hf
  unfold tearDown
  rcases unwind (replies.action side.cleanup) (r.count side) none with ⟨undone, none | first⟩
  · intro h hf
    rw [← hf] at h
    cases h
  intro h hf
  rw [← hf] at h
  cases h
  rfl

theorem Moves.reports {process : ℕ} {a : Returned × DependencyLifecycleRegistry × List HookCall}
    (hmoves : Moves process replies r a) (h : firstCleanupError a.2.2 = some e) :
    a.1 = .status (.error e) := by
  have hl : ∀ calls : List HookCall, (∀ c ∈ calls, c.isAction = false) →
      firstCleanupError calls = none := by
    intro calls hcalls
    refine findSome?_eq_none_iff.mpr fun c hc => ?_
    have := hcalls c hc
    cases c with
    | action stage slot result => cases this
    | liveState slot state => rfl
  cases hmoves with
  | quiet value => cases h
  | register hooks owns phase => cases h
  | read value calls owns ready live | prepare value calls owns phase live returned =>
    rw [hl calls live] at h
    cases h
  | raise side owns phase => exact congrArg Returned.status (bringUp_reports h)
  | lower side owns ready => exact congrArg Returned.status (tearDown_reports h)

end Reports

section Ended

variable {r : DependencyLifecycleRegistry} {process : ℕ} {replies : Replies}

variable {side : Side}

theorem before_not_ended (h : r.phase = side.before) : r.phase.ended = false := by
  rw [h]
  cases side <;> rfl

theorem ready_not_ended (h : side.IsReady r.phase) : r.phase.ended = false := by
  cases side with
  | master =>
    rcases h with h | h
    · rw [h]
      rfl
    · rw [h]
      rfl
  | worker =>
    rw [show r.phase = .workerReady from h]
    rfl

/-- Once the phase has ended, a call changes nothing and calls no hook. -/
theorem Moves.ended {a : Returned × DependencyLifecycleRegistry × List HookCall}
    (hmoves : Moves process replies r a) (h : r.phase.ended = true) : a.2 = (r, []) := by
  cases hmoves with
  | quiet value => rfl
  | register hooks owns phase =>
    rw [phase] at h
    cases h
  | read value calls owns ready live | lower side owns ready =>
    rw [ready_not_ended ready] at h
    cases h
  | prepare value calls owns phase live returned =>
    rw [phase] at h
    cases h
  | raise side owns phase =>
    rw [before_not_ended phase] at h
    cases h

theorem Side.Owns.kept {r' : DependencyLifecycleRegistry} (h : side.Owns process r)
    (hk : Kept r r') : side.Owns process r' := by
  cases side with
  | master => exact ⟨h.1, hk.masterProcess ▸ h.2⟩
  | worker => exact ⟨h.1, hk.masterProcess ▸ h.2.1, hk.workerProcess ▸ h.2.2⟩

theorem cleanUp_of_over (howns : side.Owns process r) (replies : Replies) :
    (r.phase = side.cleaned → cleanUp r process replies side = ⟨.ok (), r, []⟩) ∧
      (r.phase = side.cleanupFailed →
        cleanUp r process replies side = ⟨r.persistentFailure, r, []⟩) := by
  cases side with
  | master =>
    obtain ⟨h0, hm⟩ := howns
    constructor <;> intro hp <;> simp [cleanUp, masterCleanup, isMasterProcess, hp,
      Side.cleaned, Side.cleanupFailed, ← hm, h0]
  | worker =>
    obtain ⟨h0, hm, hw⟩ := howns
    constructor <;> intro hp <;> simp [cleanUp, workerCleanup, hp, Side.cleaned,
      Side.cleanupFailed, ← hw, h0, hm]

/-- The owner of a side that is ready can tear it down. -/
theorem cleanUp_of_ready (howns : side.Owns process r) (hr : side.IsReady r.phase) :
    cleanUp r process replies side = tearDown side r replies := by
  cases side with
  | master =>
    obtain ⟨h0, hm⟩ := howns
    rcases hr with hr | hr <;> simp [cleanUp, masterCleanup, isMasterProcess, hr, ← hm, h0]
  | worker =>
    obtain ⟨h0, hm, hw⟩ := howns
    have hr : r.phase = .workerReady := hr
    simp [cleanUp, workerCleanup, hr, ← hw, h0, hm]

/-- A cleanup that is called again returns the same result and calls no hook. -/
theorem cleanUp_repeats (side : Side) (replies' : Replies) :
    cleanUp (cleanUp r process replies side).registry process replies' side =
      ⟨(cleanUp r process replies side).result, (cleanUp r process replies side).registry, []⟩ := by
  rcases cleanUp_cases r process side with ⟨result, hquiet⟩ | ⟨howns, _, hdown⟩
  · rw [hquiet, hquiet]
  obtain ⟨_, hk, ⟨hp, hres⟩ | ⟨hp, hres⟩⟩ := tearDown_cases side r replies
  · rw [hdown, hres]
    exact (cleanUp_of_over (howns.kept hk) replies').1 hp
  · rw [hdown, hres]
    exact (cleanUp_of_over (howns.kept hk) replies').2 hp

end Ended

end Laghu.DependencyLifecycle
